import CausalReplica.Proofs.Batch.Encoding

/-!
# What readers accept

Readers are given bytes of any origin. Whatever they read, its numbers fit their fields and its
lengths can be written, so that it could be written in turn. Each reader has one law, made of those
of its parts.
-/

namespace CausalReplica.Batch

/-- Whatever `r` reads has the property. -/
def Yields (r : Reader α) (P : α → Prop) : Prop :=
  ∀ bytes a rest, r bytes = some (a, rest) → P a

namespace Yields

variable {r : Reader α} {f : α → Reader β} {g : α → β} {P : α → Prop} {Q : β → Prop} {a : α}

theorem pure (h : P a) : Yields (Pure.pure a) P := by
  intro bytes b rest hread
  cases hread
  exact h

theorem failure : Yields (Alternative.failure : Reader α) P := fun _ _ _ hread => nomatch hread

theorem bind (h : Yields r P) (hf : ∀ a, P a → Yields (f a) Q) : Yields (r >>= f) Q := by
  intro bytes b rest hread
  change (r bytes).bind (fun p => f p.1 p.2) = some (b, rest) at hread
  obtain ⟨⟨a, left⟩, hfirst, hnext⟩ := Option.bind_eq_some_iff.mp hread
  exact hf a (h bytes a left hfirst) left b rest hnext

theorem map (h : Yields r P) (hg : ∀ a, P a → Q (g a)) :
    Yields (r >>= fun a => Pure.pure (g a)) Q :=
  h.bind fun a ha => pure (hg a ha)

theorem any (r : Reader α) : Yields r fun _ => True := fun _ _ _ _ => trivial

theorem ite {c : Prop} [Decidable c] {r' : Reader α} (h : c → Yields r P) (h' : ¬c → Yields r' P) :
    Yields (if c then r else r') P := by
  split
  · next hc => exact h hc
  · next hc => exact h' hc

theorem times (h : Yields r P) (n : Nat) :
    Yields (r.times n) fun as => as.length = n ∧ ∀ a ∈ as, P a := by
  induction n with
  | zero => exact pure ⟨rfl, by simp⟩
  | succ n ih =>
    refine h.bind fun a ha => ih.map fun as has => ⟨?_, List.forall_mem_cons.mpr ⟨ha, has.2⟩⟩
    rw [List.length_cons, has.1]

end Yields

section Numbers

theorem ofLittleEndian_lt (bytes : List UInt8) : ofLittleEndian bytes < 256 ^ bytes.length := by
  induction bytes with
  | nil => exact Nat.one_pos
  | cons b bytes ih =>
    have hb : b.toNat < 256 := b.toNat_lt
    rw [ofLittleEndian, List.length_cons, Nat.pow_succ]
    omega

theorem yields_littleEndian {k : Nat} (h : 256 ^ k ≤ UInt64.size) :
    Yields (Reader.byte.times k >>= fun bytes => pure (ofLittleEndian bytes)) LengthFits := by
  refine ((Yields.any Reader.byte).times k).map fun bytes hbytes => ?_
  have hlt := ofLittleEndian_lt bytes
  rw [hbytes.1] at hlt
  exact Nat.lt_of_lt_of_le hlt h

/-- Numbers of any form are below the bound of the longest. -/
theorem yields_nat : Yields decodeNat LengthFits := by
  refine (Yields.any Reader.byte).bind fun b _ => ?_
  refine .ite (fun _ => .pure (Nat.lt_trans b.toNat_lt (by decide))) fun _ => ?_
  refine .ite (fun _ => yields_littleEndian (by decide)) fun _ => ?_
  refine .ite (fun _ => yields_littleEndian (by decide)) fun _ => ?_
  exact .ite (fun _ => yields_littleEndian (by decide)) fun _ => .failure

theorem yields_word : Yields decodeWord (· ≤ Word.top) :=
  yields_nat.bind fun _ _ => .ite (fun h => .pure h) fun _ => .failure

theorem int64Fits_ofZigzag {n : Nat} (h : LengthFits n) : Int64Fits (ofZigzag n) := by
  change n < 18446744073709551616 at h
  change -9223372036854775808 ≤ ofZigzag n ∧ ofZigzag n ≤ 9223372036854775807
  unfold ofZigzag
  split <;> simp only [Int.ofNat_eq_natCast, Int.negSucc_eq] <;> omega

theorem yields_int : Yields decodeInt Int64Fits := yields_nat.map fun _ => int64Fits_ofZigzag

end Numbers

section Composites

theorem yields_list {r : Reader α} {P : α → Prop} (h : Yields r P) :
    Yields (decodeList r) fun as => LengthFits as.length ∧ ∀ a ∈ as, P a := by
  refine yields_nat.bind fun n hn => ?_
  intro bytes as rest hread
  obtain ⟨hlen, hall⟩ := h.times n bytes as rest hread
  exact ⟨hlen ▸ hn, hall⟩

theorem yields_text : Yields decodeText TextFits := by
  refine yields_nat.bind fun n hn => ((Yields.any Reader.byte).times n).bind fun bytes hbytes => ?_
  split
  · next s hs =>
    refine .pure ?_
    obtain ⟨_, hvalid⟩ := Option.dite_none_right_eq_some.mp hs
    cases hvalid
    change bytes.toArray.size < UInt64.size
    rw [List.size_toArray, hbytes.1]
    exact hn
  · exact .failure

theorem yields_option {r : Reader α} {P : α → Prop} (h : Yields r P) :
    Yields (decodeOption r) fun o => ∀ a ∈ o, P a := by
  refine (Yields.any decodeBool).bind fun b _ => .ite (fun _ => ?_) fun _ => ?_
  · exact h.map fun a ha b hb => by cases hb; exact ha
  · exact .pure fun a ha => nomatch ha

theorem yields_opId : Yields decodeOpId OpId.Fits :=
  (Yields.any decodePeer).bind fun _ _ => yields_word.map fun _ => id

theorem yields_containerWith (r : Reader Peer) :
    Yields (decodeContainerWith r) fun id => id.Fits ∧ id.Sized := by
  refine (Yields.any decodeNat).bind fun n _ => ?_
  split
  · exact yields_text.bind fun name hname => (Yields.any decodeKind).map fun _ _ => ⟨trivial, hname⟩
  · refine (Yields.any r).bind fun p _ => yields_word.bind fun counter hcounter => ?_
    exact (Yields.any decodeKind).map fun _ _ => ⟨hcounter, trivial⟩
  · exact .failure

theorem yields_value : Yields decodeValue fun v => v.Fits ∧ v.Sized := by
  refine (Yields.any decodeNat).bind fun n _ => ?_
  split
  · exact .pure ⟨trivial, trivial⟩
  · exact (Yields.any decodeBool).map fun _ _ => ⟨trivial, trivial⟩
  · exact yields_int.map fun _ hn => ⟨hn, trivial⟩
  · exact yields_text.map fun _ hs => ⟨trivial, hs⟩
  · exact (yields_containerWith decodePeerNumeral).map fun _ => id
  · exact .failure

theorem yields_content : Yields decodeContent fun content => content.Fits ∧ content.Sized := by
  refine (Yields.any decodeNat).bind fun n _ => ?_
  split
  · exact yields_word.bind fun pos hpos => yields_text.map fun text htext => ⟨hpos, htext⟩
  · refine yields_word.bind fun pos hpos => (yields_list yields_value).map fun values hvalues => ?_
    exact ⟨⟨hpos, fun v hv => (hvalues.2 v hv).1⟩, hvalues.1, fun v hv => (hvalues.2 v hv).2⟩
  · exact yields_word.bind fun pos hpos => yields_word.map fun len hlen => ⟨⟨hpos, hlen⟩, trivial⟩
  · refine yields_text.bind fun key hkey => (yields_option yields_value).map fun value hvalue => ?_
    exact ⟨fun v hv => (hvalue v hv).1, hkey, fun v hv => (hvalue v hv).2⟩
  · exact (Yields.any decodeKind).map fun _ _ => ⟨trivial, trivial⟩
  · exact .failure

theorem yields_item : Yields decodeItem fun item => ItemFits item ∧ ItemSized item := by
  refine (yields_containerWith decodePeer).bind fun container hcontainer => ?_
  exact yields_content.map fun content hcontent =>
    ⟨⟨hcontainer.1, hcontent.1⟩, hcontainer.2, hcontent.2⟩

theorem yields_record : Yields decodeRecord fun r => r.Fits ∧ r.Sized := by
  refine yields_opId.bind fun id hid => yields_word.bind fun lamport hlamport => ?_
  refine yields_int.bind fun timestamp htime => (yields_list yields_opId).bind fun deps hdeps => ?_
  refine (yields_list yields_item).map fun items hitems => ⟨?_, ?_⟩
  · exact ⟨hid, hlamport, htime, hdeps.2, fun item hitem => (hitems.2 item hitem).1⟩
  · exact ⟨hdeps.1, hitems.1, fun item hitem => (hitems.2 item hitem).2⟩

end Composites

end CausalReplica.Batch
