import CausalReplica.Proofs.Change.Slice

/-!
# Numbers that fit their fields

Counters, positions and lengths fit a word, integers and times a signed word of twice the size.
Slicing a change keeps this. Apart from it stands what is true of any text and list in memory, that
its length fits eight bytes.
-/

namespace CausalReplica

/-- A signed number of 64 bits. -/
def Int64Fits (n : Int) : Prop := Int64.minValue.toInt ≤ n ∧ n ≤ Int64.maxValue.toInt

def OpId.Fits (id : OpId) : Prop := id.counter ≤ Word.top

def ContainerId.Fits : ContainerId → Prop
  | .root .. => True
  | .child id _ => id.Fits

def Value.Fits : Value → Prop
  | .int n => Int64Fits n
  | .container id => id.Fits
  | _ => True

def Content.Fits : Content → Prop
  | .insertText pos _ => pos ≤ Word.top
  | .insertValues pos values => pos ≤ Word.top ∧ ∀ v ∈ values, v.Fits
  | .delete pos len => pos ≤ Word.top ∧ len ≤ Word.top
  | .setKey _ value => ∀ v ∈ value, v.Fits
  | .createChild _ => True

def ItemFits (item : ContainerId × Content) : Prop := item.1.Fits ∧ item.2.Fits

section Lengths

/-- A length that can be written. -/
def LengthFits (n : Nat) : Prop := n < UInt64.size

def TextFits (s : String) : Prop := LengthFits s.toByteArray.size

def ContainerId.Sized : ContainerId → Prop
  | .root name _ => TextFits name
  | .child .. => True

def Value.Sized : Value → Prop
  | .text s => TextFits s
  | .container id => id.Sized
  | _ => True

def Content.Sized : Content → Prop
  | .insertText _ text => TextFits text
  | .insertValues _ values => LengthFits values.length ∧ ∀ v ∈ values, v.Sized
  | .setKey key value => TextFits key ∧ ∀ v ∈ value, v.Sized
  | .delete .. | .createChild _ => True

def ItemSized (item : ContainerId × Content) : Prop := item.1.Sized ∧ item.2.Sized

/-- The texts and lists of the change are of lengths that can be written. -/
structure Change.Sized (c : Change) : Prop where
  deps_sized : LengthFits c.deps.ids.length
  ops_sized : LengthFits c.ops.length
  contents_sized : ∀ op ∈ c.ops, op.container.Sized ∧ op.content.Sized

end Lengths

theorem Content.Fits.suffix {content : Content} (h : content.Fits) (offset : Nat) :
    (content.suffix offset).Fits := by
  cases content with
  | insertText pos text => exact Word.wrap_le_top _
  | insertValues pos values =>
    exact ⟨Word.wrap_le_top _, fun v hv => h.2 v (List.mem_of_mem_drop hv)⟩
  | delete pos len => exact ⟨h.1, Nat.le_trans (Nat.sub_le len offset) h.2⟩
  | setKey key value => exact h
  | createChild kind => exact h

namespace Change

structure Fits (c : Change) : Prop where
  wellFormed : c.WellFormed
  deps_ascending : Ordered.Ascending c.deps.ids
  deps_fit : ∀ id ∈ c.deps.ids, id.Fits
  timestamp_fits : Int64Fits c.timestamp
  ops_fit : ∀ op ∈ c.ops, op.container.Fits ∧ op.content.Fits

theorem Fits.sliceFrom {c : Change} (h : c.Fits) {k : Nat} (hk : k < c.stop) :
    (c.sliceFrom k).Fits := by
  by_cases hle : k ≤ c.start
  · rwa [sliceFrom_of_le hle]
  have hwf := h.wellFormed.sliceFrom hk
  have htop := h.wellFormed.stop_le_top
  rw [sliceFrom_of_lt (by omega)] at hwf ⊢
  refine ⟨hwf, List.pairwise_singleton _ _, fun id hid => ?_, h.timestamp_fits, fun op hop => ?_⟩
  · rw [List.mem_singleton.mp hid]
    change k - 1 ≤ Word.top
    omega
  · obtain ⟨whole, hwhole, rfl⟩ := List.mem_map.mp hop
    obtain ⟨hcontainer, hcontent⟩ := h.ops_fit whole (List.mem_filter.mp hwhole).1
    split
    · exact ⟨hcontainer, hcontent.suffix _⟩
    · exact ⟨hcontainer, hcontent⟩

end Change

/-! Whether a given change fits can be computed. -/

section Decidable

instance (n : Int) : Decidable (Int64Fits n) := inferInstanceAs (Decidable (_ ∧ _))

instance (id : OpId) : Decidable id.Fits := inferInstanceAs (Decidable (_ ≤ _))

instance : (id : ContainerId) → Decidable id.Fits
  | .root .. => isTrue trivial
  | .child id _ => inferInstanceAs (Decidable id.Fits)

instance : (v : Value) → Decidable v.Fits
  | .int n => inferInstanceAs (Decidable (Int64Fits n))
  | .container id => inferInstanceAs (Decidable id.Fits)
  | .null | .bool _ | .text _ => isTrue trivial

instance : (content : Content) → Decidable content.Fits
  | .insertText .. => inferInstanceAs (Decidable (_ ≤ _))
  | .insertValues _ values => inferInstanceAs (Decidable (_ ∧ ∀ v ∈ values, v.Fits))
  | .delete .. => inferInstanceAs (Decidable (_ ∧ _))
  | .setKey _ value => inferInstanceAs (Decidable (∀ v ∈ value, v.Fits))
  | .createChild _ => isTrue trivial

instance (n : Nat) : Decidable (LengthFits n) := inferInstanceAs (Decidable (_ < _))

instance (s : String) : Decidable (TextFits s) := inferInstanceAs (Decidable (LengthFits _))

instance : (id : ContainerId) → Decidable id.Sized
  | .root name _ => inferInstanceAs (Decidable (TextFits name))
  | .child .. => isTrue trivial

instance : (v : Value) → Decidable v.Sized
  | .text s => inferInstanceAs (Decidable (TextFits s))
  | .container id => inferInstanceAs (Decidable id.Sized)
  | .null | .bool _ | .int _ => isTrue trivial

instance : (content : Content) → Decidable content.Sized
  | .insertText _ text => inferInstanceAs (Decidable (TextFits text))
  | .insertValues _ values => inferInstanceAs (Decidable (_ ∧ ∀ v ∈ values, v.Sized))
  | .setKey _ value => inferInstanceAs (Decidable (_ ∧ ∀ v ∈ value, v.Sized))
  | .delete .. | .createChild _ => isTrue trivial

instance (c : Change) : Decidable (Ordered.Ascending c.deps.ids) :=
  inferInstanceAs (Decidable (List.Pairwise _ _))

instance (c : Change) : Decidable c.Fits :=
  decidable_of_iff (c.WellFormed ∧ Ordered.Ascending c.deps.ids ∧ (∀ id ∈ c.deps.ids, id.Fits) ∧
      Int64Fits c.timestamp ∧ ∀ op ∈ c.ops, op.container.Fits ∧ op.content.Fits)
    ⟨fun ⟨h, i, j, k, l⟩ => ⟨h, i, j, k, l⟩, fun ⟨h, i, j, k, l⟩ => ⟨h, i, j, k, l⟩⟩

instance (c : Change) : Decidable c.Sized :=
  decidable_of_iff (LengthFits c.deps.ids.length ∧ LengthFits c.ops.length ∧
      ∀ op ∈ c.ops, op.container.Sized ∧ op.content.Sized)
    ⟨fun ⟨h, i, j⟩ => ⟨h, i, j⟩, fun ⟨h, i, j⟩ => ⟨h, i, j⟩⟩

end Decidable

end CausalReplica
