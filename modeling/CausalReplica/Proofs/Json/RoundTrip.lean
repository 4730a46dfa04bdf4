import CausalReplica.Json.Values
import CausalReplica.Proofs.Change.Fits
import CausalReplica.Proofs.Json.Text

/-!
# Values survive JSON

Each type of the domain is written in a form that its reader takes, and reading gives the value back
in full: counters and integers over their whole ranges, peers as numerals, the order of heads, and
entries of a version vector that are zero.
-/

namespace CausalReplica

namespace Json

variable {α : Type} {write : α → Json} {read : Json → Option α} {a : α} {items : List α}
  {fields : List (String × Json)} {names : List String} {name : String} {v : Json} {n : Nat}
  {i : Int}

/-- The tree is one that can be written, and it is read as the value. -/
structure Restores (write : α → Json) (read : Json → Option α) (a : α) : Prop where
  plain : (write a).Plain
  read_eq : read (write a) = some a

/-- The value is read back from its tree, and from the text of its tree. -/
structure RoundTrips (write : α → Json) (read : Json → Option α) (a : α) : Prop where
  tree : read (write a) = some a
  text : (ofText? (write a).toText).bind read = some a

theorem Restores.roundTrips (h : Restores write read a) : RoundTrips write read a where
  tree := h.read_eq
  text := by rw [h.plain.ofText?_toText]; exact h.read_eq

section Fields

@[simp] theorem text?_str (s : String) : (str s).text? = some s := rfl

@[simp] theorem bool?_bool (b : Bool) : (bool b).bool? = some b := rfl

theorem word?_nat (h : n ≤ Word.top) : (nat n).word? = some n := if_pos h

theorem int64?_int (h : Int64Fits i) : (int i).int64? = some i := if_pos h

theorem Plain.nat (n : Nat) : (nat n).Plain := .int n

@[simp] theorem alternative?_alternative :
    (alternative name v).alternative? = some (name, some v) := rfl

theorem Plain.alternative (name : String) (h : v.Plain) : (alternative name v).Plain :=
  .record (by simpa using h)

theorem mapM_map_eq_some {β γ : Type} {f : α → β} {g : β → Option γ} {h : α → γ}
    (heq : ∀ a ∈ items, g (f a) = some (h a)) : (items.map f).mapM g = some (items.map h) := by
  induction items with
  | nil => rfl
  | cons a items ih =>
    obtain ⟨ha, hitems⟩ := List.forall_mem_cons.mp heq
    simp [ha, ih hitems]

theorem namedFields?_named (fields : List (String × Json)) :
    namedFields? (named fields) = some fields := by
  have hread : namedFields? (named fields) = some (fields.map id) := mapM_map_eq_some fun _ _ => rfl
  rw [hread, List.map_id]

theorem field?_of_mem (h : (fields.map (·.1)).Nodup) (hmem : (name, v) ∈ fields) :
    field? fields name = some (some v) := by
  have hone : fields.filter (fun field => field.1 = name) = [(name, v)] := by
    induction fields with
    | nil => exact nomatch hmem
    | cons field fields ih =>
      rw [List.map_cons, List.nodup_cons] at h
      rcases List.mem_cons.mp hmem with rfl | hmem
      · have hothers : fields.filter (fun field => field.1 = name) = [] :=
          List.filter_eq_nil_iff.mpr fun other hother => by
            simpa using fun heq => h.1 (List.mem_map.mpr ⟨other, hother, heq⟩)
        simp [hothers]
      · have hne : field.1 ≠ name := fun heq =>
          h.1 (List.mem_map.mpr ⟨(name, v), hmem, heq.symm⟩)
        simp [hne, ih h.2 hmem]
  rw [field?, hone]

theorem objectFields?_named (hnames : fields.map (·.1) = names) (h : names.Nodup) :
    objectFields? names (named fields) = some (fields.map fun field => some field.2) := by
  subst hnames
  rw [objectFields?, namedFields?_named]
  exact mapM_map_eq_some fun field hfield => field?_of_mem h hfield

theorem fields?_record (hnames : fields.map (·.1) = names) (h : names.Nodup) :
    (record fields).fields? names = some (fields.map fun field => some field.2) :=
  objectFields?_named hnames h

theorem Restores.array (h : ∀ a ∈ items, Restores write read a) :
    Restores (fun items => .array (items.map write)) (arrayOf? read) items where
  plain := .array (List.forall_mem_map.mpr fun a ha => (h a ha).plain)
  read_eq := by
    rw [arrayOf?, mapM_map_eq_some fun a ha => (h a ha).read_eq, List.map_id']

/-- Nothing is written as a null, so no value may be. -/
theorem Restores.optional {o : Option α} (h : ∀ a ∈ o, Restores write read a)
    (hnull : ∀ a, write a ≠ .null) :
    Restores (fun o => ofOption (o.map write)) (optional? read) o where
  plain := by
    cases o with
    | none => exact .null
    | some a => exact (h a rfl).plain
  read_eq := by
    cases o with
    | none => rfl
    | some a =>
      have hread := (h a rfl).read_eq
      simp only [Option.map_some, ofOption]
      unfold optional?
      split
      · next heq => exact absurd heq (hnull a)
      · rw [hread]
        rfl

end Fields

end Json

open Json

section Ids

variable {id : OpId} {span : IdSpan} {container : ContainerId}

def IdSpan.Fits (span : IdSpan) : Prop := span.start ≤ Word.top ∧ span.stop ≤ Word.top

theorem Peer.ofText?_toText (p : Peer) : Peer.ofText? p.toText = some p := by
  simp [Peer.ofText?, p.ofNumeral_toText, Except.toOption]

theorem Peer.restores (p : Peer) : Restores Peer.toJson Peer.ofJson? p where
  plain := .text _
  read_eq := by
    simp [Peer.toJson, Peer.ofJson?, p.ofText?_toText]

theorem OpId.restores (h : id.Fits) : Restores OpId.toJson OpId.ofJson? id where
  plain := .record (by simp [id.peer.restores.plain, Plain.nat])
  read_eq := by
    have hfields : id.toJson.fields? ["peer", "counter"] =
      some [some id.peer.toJson, some (.nat id.counter)] := fields?_record rfl (by decide)
    simp [OpId.ofJson?, hfields, id.peer.restores.read_eq, word?_nat h]

theorem IdSpan.restores (h : span.Fits) : Restores IdSpan.toJson IdSpan.ofJson? span where
  plain := .record (by simp [span.peer.restores.plain, Plain.nat])
  read_eq := by
    have hfields : span.toJson.fields? ["peer", "start", "end"] =
      some [some span.peer.toJson, some (.nat span.start), some (.nat span.stop)] :=
        fields?_record rfl (by decide)
    simp [IdSpan.ofJson?, hfields, span.peer.restores.read_eq, word?_nat h.1, word?_nat h.2]

theorem Kind.restores (k : Kind) : Restores Kind.toJson Kind.ofJson? k where
  plain := .text _
  read_eq := by cases k <;> rfl

theorem ContainerId.restores (h : container.Fits) :
    Restores ContainerId.toJson ContainerId.ofJson? container := by
  cases container with
  | root name kind =>
    have hkind := kind.restores
    have hfields : (record [("name", .str name), ("kind", kind.toJson)]).fields? ["name", "kind"] =
      some [some (.str name), some kind.toJson] := fields?_record rfl (by decide)
    refine ⟨.alternative _ (.record ?_), ?_⟩
    · simp [Plain.text, hkind.plain]
    · simp [ofJson?, toJson, hfields, hkind.read_eq]
  | child id kind =>
    have hid := OpId.restores h
    have hkind := kind.restores
    have hfields : (record [("id", id.toJson), ("kind", kind.toJson)]).fields? ["id", "kind"] =
      some [some id.toJson, some kind.toJson] := fields?_record rfl (by decide)
    refine ⟨.alternative _ (.record ?_), ?_⟩
    · simp [hid.plain, hkind.plain]
    · simp [ofJson?, toJson, hfields, hid.read_eq, hkind.read_eq]

end Ids

section Contents

variable {value : Value} {content : Content} {op : Op}

def Op.Fits (op : Op) : Prop := op.counter ≤ Word.top ∧ op.container.Fits ∧ op.content.Fits

theorem Value.toJson_ne_null (value : Value) : value.toJson ≠ .null := by
  cases value <;> exact nofun

theorem Value.restores (h : value.Fits) : Restores Value.toJson Value.ofJson? value := by
  cases value with
  | null => exact ⟨.text _, rfl⟩
  | bool b => exact ⟨.alternative _ (.bool b), rfl⟩
  | int n => exact ⟨.alternative _ (.int n), by simp [ofJson?, toJson, int64?_int h]⟩
  | text s => exact ⟨.alternative _ (.text s), rfl⟩
  | container id =>
    have hid := ContainerId.restores h
    exact ⟨.alternative _ hid.plain, by simp [ofJson?, toJson, hid.read_eq]⟩

theorem Content.restores (h : content.Fits) :
    Restores Content.toJson Content.ofJson? content := by
  cases content with
  | insertText pos text =>
    have hfields : (record [("pos", .nat pos), ("text", .str text)]).fields? ["pos", "text"] =
      some [some (.nat pos), some (.str text)] := fields?_record rfl (by decide)
    refine ⟨.alternative _ (.record ?_), ?_⟩
    · simp [Plain.nat, Plain.text]
    · simp [ofJson?, toJson, hfields, word?_nat h]
  | insertValues pos values =>
    have hvalues := Restores.array fun v hv => Value.restores (h.2 v hv)
    have hfields :
      (record [("pos", .nat pos), ("values", .array (values.map Value.toJson))]).fields?
        ["pos", "values"] = some [some (.nat pos), some (.array (values.map Value.toJson))] :=
      fields?_record rfl (by decide)
    refine ⟨.alternative _ (.record ?_), ?_⟩
    · simp [Plain.nat, hvalues.plain]
    · simp [ofJson?, toJson, hfields, word?_nat h.1, hvalues.read_eq]
  | delete pos len =>
    have hfields : (record [("pos", .nat pos), ("len", .nat len)]).fields? ["pos", "len"] =
      some [some (.nat pos), some (.nat len)] := fields?_record rfl (by decide)
    refine ⟨.alternative _ (.record ?_), ?_⟩
    · simp [Plain.nat]
    · simp [ofJson?, toJson, hfields, word?_nat h.1, word?_nat h.2]
  | setKey key value =>
    -- No value is written as a null, which is how a cleared key is written.
    have hvalue := Restores.optional (fun v hv => Value.restores (h v hv)) Value.toJson_ne_null
    have hfields :
      (record [("key", .str key), ("value", .ofOption (value.map Value.toJson))]).fields?
        ["key", "value"] = some [some (.str key), some (.ofOption (value.map Value.toJson))] :=
      fields?_record rfl (by decide)
    refine ⟨.alternative _ (.record ?_), ?_⟩
    · simp [Plain.text, hvalue.plain]
    · simp [ofJson?, toJson, hfields, hvalue.read_eq]
  | createChild kind =>
    have hfields : (record [("kind", kind.toJson)]).fields? ["kind"] = some [some kind.toJson] :=
      fields?_record rfl (by decide)
    refine ⟨.alternative _ (.record ?_), ?_⟩
    · simp [kind.restores.plain]
    · simp [ofJson?, toJson, hfields, kind.restores.read_eq]

theorem Op.restores (h : op.Fits) : Restores Op.toJson Op.ofJson? op where
  plain := .record (by
    simp [Plain.nat, (ContainerId.restores h.2.1).plain, (Content.restores h.2.2).plain])
  read_eq := by
    have hfields : op.toJson.fields? ["counter", "container", "content"] =
      some [some (.nat op.counter), some op.container.toJson, some op.content.toJson] :=
        fields?_record rfl (by decide)
    simp [ofJson?, hfields, word?_nat h.1, (ContainerId.restores h.2.1).read_eq,
      (Content.restores h.2.2).read_eq]

end Contents

section Versions

variable {f : Frontiers} {summary : ChangeSummary} {v : VersionVector}

def Frontiers.Fits (f : Frontiers) : Prop := ∀ id ∈ f.ids, id.Fits

structure ChangeSummary.Fits (summary : ChangeSummary) : Prop where
  counter_le : summary.counter ≤ Word.top
  length_le : summary.length ≤ Word.top
  lamport_le : summary.lamport ≤ Word.top
  deps_fit : summary.deps.Fits
  timestamp_fits : Int64Fits summary.timestamp

def VersionVector.Fits (v : VersionVector) : Prop := ∀ entry ∈ v.toList, entry.2 ≤ Word.top

theorem Frontiers.restores (h : f.Fits) : Restores Frontiers.toJson Frontiers.ofJson? f := by
  have hids := Restores.array fun id hid => OpId.restores (h id hid)
  exact ⟨hids.plain, by simp [ofJson?, toJson, hids.read_eq]⟩

theorem ChangeSummary.restores (h : summary.Fits) :
    Restores ChangeSummary.toJson ChangeSummary.ofJson? summary where
  plain := .record (by
    simp [Plain.nat, Plain.int, summary.peer.restores.plain, (Frontiers.restores h.deps_fit).plain])
  read_eq := by
    have hfields : summary.toJson.fields?
      ["peer", "counter", "length", "lamport", "deps", "timestamp"] =
        some [some summary.peer.toJson, some (.nat summary.counter), some (.nat summary.length),
          some (.nat summary.lamport), some summary.deps.toJson, some (.int summary.timestamp)] :=
      fields?_record rfl (by decide)
    simp [ofJson?, hfields, summary.peer.restores.read_eq, word?_nat h.counter_le,
      word?_nat h.length_le, word?_nat h.lamport_le, (Frontiers.restores h.deps_fit).read_eq,
      int64?_int h.timestamp_fits]

/-- Each entry of the object adds its own, with the end it states. -/
theorem VersionVector.foldlM_addField? {entries : List (Peer × Nat)}
    (h : ∀ entry ∈ entries, entry.2 ≤ Word.top) (v : VersionVector) :
    (entries.map fun (p, n) => (p.toText, nat n)).foldlM addField? v =
      some ⟨entries.foldl (fun ends entry => ends.insert entry.1 entry.2) v.ends⟩ := by
  induction entries generalizing v with
  | nil => rfl
  | cons entry entries ih =>
    obtain ⟨hentry, hentries⟩ := List.forall_mem_cons.mp h
    have hadd : addField? v (entry.1.toText, nat entry.2) =
        some ⟨v.ends.insert entry.1 entry.2⟩ := by
      simp [addField?, Peer.ofText?_toText, word?_nat hentry]
    rw [List.map_cons, List.foldlM_cons, hadd]
    exact ih hentries _

theorem VersionVector.restores (h : v.Fits) :
    Restores VersionVector.toJson VersionVector.ofJson? v where
  plain := .record (List.forall_mem_map.mpr fun _ _ => .nat _)
  read_eq := by
    have hobject : v.toJson = .object (named (v.toList.map fun (p, n) => (p.toText, nat n))) := rfl
    rw [hobject, ofJson?, namedFields?_named]
    change (v.toList.map _).foldlM addField? .empty = _
    rw [foldlM_addField? h]
    exact congrArg (fun ends => some (VersionVector.mk ends)) v.ends.foldl_insert_entries

end Versions

theorem Config.restores (config : Config) : Restores Config.toJson Config.ofJson? config := by
  have hpeer := Restores.optional (fun p (_ : p ∈ config.peer) => p.restores) nofun
  have hfields : config.toJson.fieldsOrFewer? ["peer", "record_timestamp"] =
    some [some (.ofOption (config.peer.map Peer.toJson)), some (.bool config.recordTimestamp)] :=
      objectFields?_named rfl (by decide)
  refine ⟨.record ?_, ?_⟩
  · simp [hpeer.plain, Plain.bool]
  · simp [ofJson?, hfields, hpeer.read_eq]

/-- Every value whose numbers fit their fields is read back from its JSON form, as a tree and as a
text. Peers are decimal numerals, also where they are keys, and a key that is cleared is not
mistaken for one that is set to null. -/
theorem json_round_trip :
    (∀ p : Peer, p.toJson = .str (Nat.repr p.number.toNat) ∧
      RoundTrips Peer.toJson Peer.ofJson? p) ∧
    (∀ id : OpId, id.Fits → RoundTrips OpId.toJson OpId.ofJson? id) ∧
    (∀ span : IdSpan, span.Fits → RoundTrips IdSpan.toJson IdSpan.ofJson? span) ∧
    (∀ id : ContainerId, id.Fits → RoundTrips ContainerId.toJson ContainerId.ofJson? id) ∧
    (∀ value : Value, value.Fits → RoundTrips Value.toJson Value.ofJson? value) ∧
    (∀ content : Content, content.Fits → RoundTrips Content.toJson Content.ofJson? content) ∧
    (∀ op : Op, op.Fits → RoundTrips Op.toJson Op.ofJson? op) ∧
    (∀ summary : ChangeSummary, summary.Fits →
      RoundTrips ChangeSummary.toJson ChangeSummary.ofJson? summary) ∧
    (∀ f : Frontiers, f.Fits → RoundTrips Frontiers.toJson Frontiers.ofJson? f) ∧
    (∀ v : VersionVector,
      v.toJson = .record (v.toList.map fun (p, n) => (Nat.repr p.number.toNat, .nat n)) ∧
      (v.Fits → RoundTrips VersionVector.toJson VersionVector.ofJson? v)) ∧
    (∀ config : Config, RoundTrips Config.toJson Config.ofJson? config) ∧
    ∀ key, (Content.setKey key none).toJson.toText ≠
      (Content.setKey key (some .null)).toJson.toText := by
  refine ⟨fun p => ⟨rfl, p.restores.roundTrips⟩, fun id h => (OpId.restores h).roundTrips,
    fun span h => (IdSpan.restores h).roundTrips, fun id h => (ContainerId.restores h).roundTrips,
    fun value h => (Value.restores h).roundTrips, fun content h => (Content.restores h).roundTrips,
    fun op h => (Op.restores h).roundTrips, fun summary h => (ChangeSummary.restores h).roundTrips,
    fun f h => (Frontiers.restores h).roundTrips,
    fun v => ⟨rfl, fun h => (VersionVector.restores h).roundTrips⟩,
    fun config => config.restores.roundTrips, fun key htext => ?_⟩
  have hcleared : (Content.setKey key none).Fits := nofun
  have hnull : (Content.setKey key (some .null)).Fits := by simp [Content.Fits, Value.Fits]
  have hsame := (Content.restores hcleared).roundTrips.text
  rw [htext, (Content.restores hnull).roundTrips.text] at hsame
  exact nomatch hsame

/-- Numbers at the ends of their ranges, and a key that has to be escaped. -/
def farthest : Op where
  counter := Word.top
  container := .child ⟨⟨18446744073709551615⟩, Word.top⟩ .map
  content := .setKey "\"\\\x08" (some (.int (-9223372036854775808)))

/-- Heads in no order, one of them twice. -/
def jumbled : Frontiers := ⟨[⟨⟨2⟩, 0⟩, ⟨⟨1⟩, 7⟩, ⟨⟨2⟩, 0⟩]⟩

def zeroed : VersionVector := ⟨OrdMap.empty.insert ⟨10⟩ 0⟩

theorem json_round_trip_extremes :
    (farthest.Fits ∧ (ofText? farthest.toJson.toText).bind Op.ofJson? = some farthest) ∧
    (jumbled.Fits ∧ (ofText? jumbled.toJson.toText).bind Frontiers.ofJson? = some jumbled) ∧
    (zeroed.Fits ∧ (ofText? zeroed.toJson.toText).bind VersionVector.ofJson? = some zeroed) := by
  obtain ⟨-, -, -, -, -, -, hop, -, hfrontiers, hvector, -⟩ := json_round_trip
  have hfarthest : farthest.Fits :=
    ⟨Nat.le_refl _, Nat.le_refl _, by simpa [farthest, Content.Fits, Value.Fits] using by decide⟩
  have hjumbled : ∀ id ∈ jumbled.ids, id.counter ≤ Word.top := by decide
  have hzeroed : ∀ entry ∈ zeroed.toList, entry.2 ≤ Word.top := by decide
  exact ⟨⟨hfarthest, (hop farthest hfarthest).text⟩, ⟨hjumbled, (hfrontiers jumbled hjumbled).text⟩,
    ⟨hzeroed, ((hvector zeroed).2 hzeroed).text⟩⟩

end CausalReplica
