import CausalReplica.Proofs.Batch.Decoding

/-!
# Where a batch ends

Bytes say by themselves where what they hold ends: a reader that succeeds takes some bytes off the
front and would read the same from them whatever else followed. Readers made of such readers are
such readers. A batch must be used up by its records, so neither a beginning of it nor anything
longer is a batch.
-/

namespace CausalReplica.Batch

/-- What `r` reads is fixed by the bytes it takes, and not by those it leaves. -/
def Delimits (r : Reader α) : Prop :=
  ∀ bytes a rest, r bytes = some (a, rest) → ∃ taken, bytes = taken ++ rest ∧ Reads r taken a

namespace Delimits

variable {r : Reader α} {f : α → Reader β}

theorem pure (a : α) : Delimits (Pure.pure a : Reader α) := by
  intro bytes b rest hread
  cases hread
  exact ⟨[], rfl, .pure a⟩

theorem failure : Delimits (Alternative.failure : Reader α) := fun _ _ _ hread => nomatch hread

/-- The second reader goes on where the first stopped, so the bytes taken add up. -/
theorem bind (h : Delimits r) (hf : ∀ a, Delimits (f a)) : Delimits (r >>= f) := by
  intro bytes b rest hread
  change (r bytes).bind (fun p => f p.1 p.2) = some (b, rest) at hread
  obtain ⟨⟨a, left⟩, hfirst, hnext⟩ := Option.bind_eq_some_iff.mp hread
  obtain ⟨taken, rfl, hreads⟩ := h bytes a left hfirst
  obtain ⟨more, rfl, hreads'⟩ := hf a left b rest hnext
  exact ⟨taken ++ more, (List.append_assoc ..).symm, hreads.bind hreads'⟩

theorem map (h : Delimits r) (g : α → β) : Delimits (r >>= fun a => Pure.pure (g a)) :=
  h.bind fun a => pure (g a)

theorem ite {c : Prop} [Decidable c] {r' : Reader α} (h : Delimits r) (h' : Delimits r') :
    Delimits (if c then r else r') := by
  split
  · exact h
  · exact h'

theorem byte : Delimits Reader.byte := by
  intro bytes b rest hread
  cases bytes with
  | nil => exact nomatch hread
  | cons c bytes =>
    cases hread
    exact ⟨[b], rfl, .byte b⟩

theorem times (h : Delimits r) (n : Nat) : Delimits (r.times n) := by
  induction n with
  | zero => exact pure []
  | succ n ih => exact h.bind fun a => ih.map fun as => a :: as

end Delimits

section Parts

variable {r : Reader α}

theorem delimits_littleEndian (k : Nat) :
    Delimits (Reader.byte.times k >>= fun bytes => pure (ofLittleEndian bytes)) :=
  (Delimits.byte.times k).map ofLittleEndian

/-- The first byte says how many more belong to the number, also where fewer would have done. -/
theorem delimits_nat : Delimits decodeNat := by
  refine Delimits.byte.bind fun b => ?_
  refine .ite (.pure _) (.ite (delimits_littleEndian 2) ?_)
  exact .ite (delimits_littleEndian 4) (.ite (delimits_littleEndian 8) .failure)

theorem delimits_word : Delimits decodeWord :=
  delimits_nat.bind fun n => .ite (.pure n) .failure

theorem delimits_int : Delimits decodeInt := delimits_nat.map ofZigzag

theorem delimits_list (h : Delimits r) : Delimits (decodeList r) :=
  delimits_nat.bind fun n => h.times n

theorem delimits_text : Delimits decodeText := by
  refine delimits_nat.bind fun n => (Delimits.byte.times n).bind fun bytes => ?_
  split
  · exact .pure _
  · exact .failure

theorem delimits_bool : Delimits decodeBool :=
  Delimits.byte.bind fun _ => .ite (.pure false) (.ite (.pure true) .failure)

theorem delimits_option (h : Delimits r) : Delimits (decodeOption r) :=
  delimits_bool.bind fun _ => .ite (h.map some) (.pure none)

theorem delimits_peer : Delimits decodePeer := delimits_nat.map fun n => Peer.mk (UInt64.ofNat n)

theorem delimits_opId : Delimits decodeOpId :=
  delimits_peer.bind fun p => delimits_word.map (OpId.mk p)

theorem delimits_kind : Delimits decodeKind := by
  refine delimits_nat.bind fun n => ?_
  split
  · exact .pure _
  · exact .failure

theorem delimits_containerWith {peer : Reader Peer} (h : Delimits peer) :
    Delimits (decodeContainerWith peer) := by
  refine delimits_nat.bind fun n => ?_
  split
  · exact delimits_text.bind fun name => delimits_kind.map (ContainerId.root name)
  · refine h.bind fun p => delimits_word.bind fun counter => ?_
    exact delimits_kind.map (ContainerId.child ⟨p, counter⟩)
  · exact .failure

theorem delimits_peerNumeral : Delimits decodePeerNumeral := by
  refine delimits_text.bind fun s => ?_
  split
  · exact .pure _
  · exact .failure

theorem delimits_value : Delimits decodeValue := by
  refine delimits_nat.bind fun n => ?_
  split
  · exact .pure _
  · exact delimits_bool.map Value.bool
  · exact delimits_int.map Value.int
  · exact delimits_text.map Value.text
  · exact (delimits_containerWith delimits_peerNumeral).map Value.container
  · exact .failure

theorem delimits_content : Delimits decodeContent := by
  refine delimits_nat.bind fun n => ?_
  split
  · exact delimits_word.bind fun pos => delimits_text.map (Content.insertText pos)
  · exact delimits_word.bind fun pos =>
      (delimits_list delimits_value).map (Content.insertValues pos)
  · exact delimits_word.bind fun pos => delimits_word.map (Content.delete pos)
  · exact delimits_text.bind fun key => (delimits_option delimits_value).map (Content.setKey key)
  · exact delimits_kind.map Content.createChild
  · exact .failure

theorem delimits_item : Delimits decodeItem :=
  (delimits_containerWith delimits_peer).bind fun container =>
    delimits_content.map (Prod.mk container)

theorem delimits_record : Delimits decodeRecord := by
  refine delimits_opId.bind fun id => delimits_word.bind fun lamport => ?_
  refine delimits_int.bind fun timestamp => (delimits_list delimits_opId).bind fun deps => ?_
  exact (delimits_list delimits_item).map (Record.mk id lamport timestamp deps)

end Parts

section Whole

variable {bytes body more : List UInt8} {rs : List Record} {d : Decoded}

/-- A body is made of the bytes that its records take. -/
theorem decodeBody_eq_some_iff :
    decodeBody body = some rs ↔ Reads (decodeList decodeRecord) body rs := by
  unfold decodeBody
  constructor
  · intro h
    split at h
    · next rs' hread =>
      cases h
      obtain ⟨taken, htaken, hreads⟩ := delimits_list delimits_record _ _ _ hread
      rw [List.append_nil] at htaken
      exact htaken ▸ hreads
    · exact nomatch h
  · intro h
    have hread := h []
    rw [List.append_nil] at hread
    rw [StateT.run, hread]

/-- What follows a body would be left over. -/
theorem decodeBody_append (h : decodeBody body = some rs) (hmore : more ≠ []) :
    decodeBody (body ++ more) = none := by
  have hread := decodeBody_eq_some_iff.mp h more
  unfold decodeBody
  rw [StateT.run, hread]
  cases more with
  | nil => exact absurd rfl hmore
  | cons b more => rfl

theorem splitHeader_eq_some_iff {version : UInt8} :
    splitHeader bytes = some (version, body) ↔ bytes = magic ++ version :: body := by
  unfold splitHeader
  constructor
  · intro h
    split at h
    · next hmagic =>
      split at h
      · exact nomatch h
      · next hdrop =>
        cases h
        have hjoin := List.take_append_drop magic.length bytes
        rw [hmagic, hdrop] at hjoin
        exact hjoin.symm
    · exact nomatch h
  · rintro rfl
    rfl

theorem splitHeader_of_length_le (h : bytes.length ≤ magic.length) : splitHeader bytes = none := by
  apply Option.eq_none_iff_forall_not_mem.mpr
  rintro ⟨version, body⟩ hsplit
  have hlen := congrArg List.length (splitHeader_eq_some_iff.mp hsplit)
  rw [List.length_append, List.length_cons] at hlen
  omega

theorem exists_body_of_decode (h : decode bytes = .ok d) :
    ∃ body rs, bytes = magic ++ formatVersion :: body ∧ decodeBody body = some rs := by
  unfold decode at h
  split at h
  · exact nomatch h
  next version body hsplit =>
    split at h
    · exact nomatch h
    next hversion =>
      split at h
      · exact nomatch h
      next rs hbody =>
        have hheader := splitHeader_eq_some_iff.mp hsplit
        rw [not_ne_iff.mp hversion] at hheader
        exact ⟨body, rs, hheader, hbody⟩

theorem decode_of_decodeBody_eq_none (h : decodeBody body = none) :
    decode (magic ++ formatVersion :: body) = .error (.decode .malformedBody) := by
  unfold decode
  rw [splitHeader_eq_some_iff.mpr rfl]
  dsimp only
  rw [if_neg (not_ne_iff.mpr rfl), h]

theorem decode_of_length_le (h : bytes.length ≤ magic.length) :
    decode bytes = .error (.decode .notABatch) := by
  unfold decode
  rw [splitHeader_of_length_le h]

end Whole

/-- When some bytes are a batch, all that begins them and is shorter is refused: it lacks a part of
the header, or its body breaks off. All that continues them is refused as well. -/
theorem decode_self_delimiting {bytes : List UInt8} {d : Decoded} (h : decode bytes = .ok d) :
    (∀ short, short <+: bytes → short ≠ bytes →
      decode short = .error (.decode
        (if short.length ≤ magic.length then .notABatch else .malformedBody))) ∧
    ∀ long, bytes <+: long → long ≠ bytes → decode long = .error (.decode .malformedBody) := by
  obtain ⟨body, rs, rfl, hbody⟩ := exists_body_of_decode h
  constructor
  · rintro short ⟨more, hsplit⟩ hne
    split
    · next hlen => exact decode_of_length_le hlen
    next hlen =>
      -- The header is whole, so it is the body that was cut.
      obtain ⟨rest, hmagic, -⟩ | ⟨rest, rfl, hrest⟩ := List.append_eq_append_iff.mp hsplit
      · have := congrArg List.length hmagic
        rw [List.length_append] at this
        omega
      cases rest with
      | nil => exact absurd (Nat.le_refl _) hlen
      | cons version start =>
        rw [List.cons_append] at hrest
        obtain ⟨rfl, rfl⟩ := List.cons.inj hrest
        refine decode_of_decodeBody_eq_none (Option.eq_none_iff_forall_not_mem.mpr ?_)
        intro rs' hstart
        have hmore : more ≠ [] := by
          rintro rfl
          exact hne (by rw [List.append_nil])
        rw [decodeBody_append hstart hmore] at hbody
        exact nomatch hbody
  · rintro long ⟨more, rfl⟩ hne
    have hmore : more ≠ [] := by
      rintro rfl
      exact hne (List.append_nil _)
    rw [List.append_assoc, List.cons_append]
    exact decode_of_decodeBody_eq_none (decodeBody_append hbody hmore)

/-- Without its last byte, with a zero after it, and cut inside the header. -/
theorem decode_self_delimiting_untidy :
    decode untidy = .ok ⟨[tidy], none⟩ ∧
      decode untidy.dropLast = .error (.decode .malformedBody) ∧
      decode (untidy.take 4) = .error (.decode .notABatch) ∧
      decode (untidy ++ [0]) = .error (.decode .malformedBody) := by
  have hread : decode untidy = .ok ⟨[tidy], none⟩ := by cbv
  obtain ⟨hshort, hlong⟩ := decode_self_delimiting hread
  refine ⟨hread, ?_, ?_, ?_⟩
  · exact hshort _ (List.dropLast_prefix _) (by decide)
  · exact hshort _ (List.take_prefix _ _) (by decide)
  · exact hlong _ (List.prefix_append _ _) (by decide)

end CausalReplica.Batch
