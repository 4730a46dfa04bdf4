import CausalReplica.Batch.Encoding
import CausalReplica.Proofs.Batch.Varint
import CausalReplica.Proofs.Change.Fits
import CausalReplica.Proofs.Numeral
import Mathlib.Data.Nat.Digits.Defs

/-!
# Reading back records

Each reader reads back what the writer beside it writes, as long as the numbers fit their fields and
the lengths can be written. Bytes that can be counted bound the lengths of all lists and texts in
them.
-/

namespace CausalReplica.Batch

/-- So few that their number can be written, as it is for any batch that fits in memory. -/
def Countable (bytes : List UInt8) : Prop := bytes.length < UInt64.size

theorem Countable.left {bytes more : List UInt8} (h : Countable (bytes ++ more)) :
    Countable bytes := by
  unfold Countable at h ⊢
  rw [List.length_append] at h
  omega

theorem Countable.right {bytes more : List UInt8} (h : Countable (bytes ++ more)) :
    Countable more := by
  unfold Countable at h ⊢
  rw [List.length_append] at h
  omega

theorem Countable.of_cons {b : UInt8} {bytes : List UInt8} (h : Countable (b :: bytes)) :
    Countable bytes :=
  Nat.lt_of_succ_lt h

theorem length_pos_append {bytes : List UInt8} (h : 0 < bytes.length) (more : List UInt8) :
    0 < (bytes ++ more).length := by
  rw [List.length_append]
  omega

theorem top_lt_size : Word.top < UInt64.size := by decide

theorem reads_word {n : Nat} (h : n ≤ Word.top) : Reads decodeWord (encodeNat n) n :=
  reads_upTo h (Nat.lt_of_le_of_lt h top_lt_size)

section Lists

variable {encode : α → List UInt8} {decode : Reader α} {as : List α}

theorem length_le_flatMap (hpos : ∀ a, 0 < (encode a).length) :
    as.length ≤ (as.flatMap encode).length := by
  induction as with
  | nil => exact Nat.le_refl 0
  | cons a as ih =>
    have := hpos a
    rw [List.flatMap_cons, List.length_append, List.length_cons]
    omega

theorem Countable.list_mem {a : α} (h : Countable (encodeList encode as)) (ha : a ∈ as) :
    Countable (encode a) := by
  obtain ⟨before, after, rfl⟩ := List.append_of_mem ha
  unfold encodeList at h
  rw [List.flatMap_append, List.flatMap_cons] at h
  exact h.right.right.left

theorem Countable.list_length (h : Countable (encodeList encode as))
    (hpos : ∀ a, 0 < (encode a).length) : LengthFits as.length :=
  Nat.lt_of_le_of_lt (length_le_flatMap hpos) h.right

theorem reads_list (hread : ∀ a ∈ as, Reads decode (encode a) a) (h : LengthFits as.length) :
    Reads (decodeList decode) (encodeList encode as) as :=
  (reads_nat h).bind (Reads.times hread)

end Lists

theorem fromUTF8?_toByteArray (s : String) : String.fromUTF8? s.toByteArray = some s := by
  unfold String.fromUTF8?
  rw [dif_pos s.isValidUTF8]
  rfl

theorem Countable.text {s : String} (h : Countable (encodeText s)) : TextFits s := h.right

theorem reads_text {s : String} (h : TextFits s) : Reads decodeText (encodeText s) s := by
  refine (reads_nat h).bind ((reads_bytes s.toByteArray.data.toList).andThen ?_)
  have hback : (⟨s.toByteArray.data.toList.toArray⟩ : ByteArray) = s.toByteArray := by
    rw [Array.toArray_toList]
  rw [hback, fromUTF8?_toByteArray]
  exact .pure s

theorem reads_bool (b : Bool) : Reads decodeBool (encodeBool b) b := by
  cases b with
  | false => exact (Reads.byte 0).andThen (.pure false)
  | true => exact (Reads.byte 1).andThen (.pure true)

theorem reads_option {encode : α → List UInt8} {decode : Reader α} {o : Option α}
    (h : ∀ a ∈ o, Reads decode (encode a) a) :
    Reads (decodeOption decode) (encodeOption encode o) o := by
  cases o with
  | none => exact (reads_bool false).andThen (.pure none)
  | some a => exact (reads_bool true).bind ((h a rfl).map some)

theorem reads_int {n : Int} (h : Int64Fits n) : Reads decodeInt (encodeInt n) n := by
  have hread := (reads_nat (zigzag_lt h.1 h.2)).map ofZigzag
  rwa [ofZigzag_zigzag] at hread

theorem reads_peer (p : Peer) : Reads decodePeer (encodePeer p) p := by
  have hread := (reads_nat p.number.toNat_lt).map fun n => Peer.mk (UInt64.ofNat n)
  rwa [UInt64.ofNat_toNat] at hread

theorem reads_opId {id : OpId} (h : id.Fits) : Reads decodeOpId (encodeOpId id) id :=
  (reads_peer id.peer).bind ((reads_word h).map (OpId.mk id.peer))

theorem reads_kind (k : Kind) : Reads decodeKind (encodeKind k) k := by
  have hrank : k.rank < UInt64.size := by cases k <;> decide
  refine (reads_nat hrank).andThen ?_
  rw [Kind.ofRank?_rank]
  exact .pure k

theorem utf8ByteSize_le (s : String) : s.utf8ByteSize ≤ 4 * s.length := by
  induction s using String.push_induction with
  | empty => exact Nat.le_refl 0
  | push s c ih =>
    have := c.utf8Size_le_four
    rw [String.utf8ByteSize_push, String.length_push]
    omega

theorem textFits_toText (p : Peer) : TextFits p.toText := by
  have hdigits : p.toText.length ≤ 20 :=
    Nat.repr_length _ 20 (by decide) (Nat.lt_trans p.number.toNat_lt (by decide))
  have hsize := utf8ByteSize_le p.toText
  change p.toText.utf8ByteSize < 18446744073709551616
  omega

theorem reads_peerNumeral (p : Peer) : Reads decodePeerNumeral (encodePeerNumeral p) p := by
  refine (reads_text (textFits_toText p)).andThen ?_
  rw [Peer.ofNumeral_toText]
  exact .pure p

theorem reads_choice (n : Nat) (h : n ≤ 4 := by decide) : Reads decodeNat (encodeNat n) n :=
  reads_nat (Nat.lt_of_le_of_lt h (by decide))

theorem reads_containerWith {encode : Peer → List UInt8} {decode : Reader Peer} {id : ContainerId}
    (hpeer : ∀ p, Reads decode (encode p) p) (hfit : id.Fits) (hsize : id.Sized) :
    Reads (decodeContainerWith decode) (encodeContainerWith encode id) id := by
  cases id with
  | root name kind =>
    rw [encodeContainerWith, List.append_assoc]
    refine (reads_choice 0).bind ?_
    exact (reads_text hsize).bind ((reads_kind kind).map (ContainerId.root name))
  | child id kind =>
    rw [encodeContainerWith, List.append_assoc, List.append_assoc]
    refine (reads_choice 1).bind ?_
    refine (hpeer id.peer).bind ?_
    refine (reads_word hfit).bind ?_
    exact (reads_kind kind).map (ContainerId.child ⟨id.peer, id.counter⟩)

theorem Countable.containerWith {encode : Peer → List UInt8} {id : ContainerId}
    (h : Countable (encodeContainerWith encode id)) : id.Sized := by
  cases id with
  | root name kind => exact h.left.right.text
  | child id kind => exact trivial

theorem reads_container {id : ContainerId} (hfit : id.Fits) (hsize : id.Sized) :
    Reads decodeContainer (encodeContainer id) id :=
  reads_containerWith reads_peer hfit hsize

theorem reads_value {v : Value} (hfit : v.Fits) (hsize : v.Sized) :
    Reads decodeValue (encodeValue v) v := by
  cases v with
  | null => exact (reads_choice 0).andThen (.pure Value.null)
  | bool b => exact (reads_choice 1).bind ((reads_bool b).map Value.bool)
  | int n => exact (reads_choice 2).bind ((reads_int hfit).map Value.int)
  | text s => exact (reads_choice 3).bind ((reads_text hsize).map Value.text)
  | container id =>
    refine (reads_choice 4).bind ?_
    exact (reads_containerWith reads_peerNumeral hfit hsize).map Value.container

theorem Countable.value {v : Value} (h : Countable (encodeValue v)) : v.Sized := by
  cases v with
  | text s => exact h.right.text
  | container id => exact h.right.containerWith
  | null | bool | int => exact trivial

theorem encodeValue_pos (v : Value) : 0 < (encodeValue v).length := by
  cases v with
  | null => exact encodeNat_pos 0
  | bool b => exact length_pos_append (encodeNat_pos 1) _
  | int n => exact length_pos_append (encodeNat_pos 2) _
  | text s => exact length_pos_append (encodeNat_pos 3) _
  | container id => exact length_pos_append (encodeNat_pos 4) _

theorem reads_content {content : Content} (hfit : content.Fits) (hsize : content.Sized) :
    Reads decodeContent (encodeContent content) content := by
  cases content with
  | insertText pos text =>
    rw [encodeContent, List.append_assoc]
    refine (reads_choice 0).bind ((reads_word hfit).bind ?_)
    exact (reads_text hsize).map (Content.insertText pos)
  | insertValues pos values =>
    rw [encodeContent, List.append_assoc]
    refine (reads_choice 1).bind ((reads_word hfit.1).bind ?_)
    have hvalues := reads_list (fun v hv => reads_value (hfit.2 v hv) (hsize.2 v hv)) hsize.1
    exact hvalues.map (Content.insertValues pos)
  | delete pos len =>
    rw [encodeContent, List.append_assoc]
    refine (reads_choice 2).bind ((reads_word hfit.1).bind ?_)
    exact (reads_word hfit.2).map (Content.delete pos)
  | setKey key value =>
    rw [encodeContent, List.append_assoc]
    refine (reads_choice 3).bind ((reads_text hsize.1).bind ?_)
    have hvalue : Reads (decodeOption decodeValue) (encodeOption encodeValue value) value :=
      reads_option fun v hv => reads_value (hfit v hv) (hsize.2 v hv)
    exact hvalue.map (Content.setKey key)
  | createChild kind => exact (reads_choice 4).bind ((reads_kind kind).map Content.createChild)

theorem Countable.content {content : Content} (h : Countable (encodeContent content)) :
    content.Sized := by
  cases content with
  | insertText pos text => exact h.right.text
  | insertValues pos values =>
    exact ⟨h.right.list_length encodeValue_pos, fun v hv => (h.right.list_mem hv).value⟩
  | setKey key value =>
    refine ⟨h.left.right.text, fun v hv => ?_⟩
    cases hv
    exact h.right.of_cons.value
  | delete | createChild => exact trivial

theorem reads_item {item : ContainerId × Content} (hfit : ItemFits item) (hsize : ItemSized item) :
    Reads decodeItem (encodeItem item) item := by
  refine (reads_container hfit.1 hsize.1).bind ?_
  exact (reads_content hfit.2 hsize.2).map (Prod.mk item.1)

theorem Countable.item {item : ContainerId × Content} (h : Countable (encodeItem item)) :
    ItemSized item :=
  ⟨h.left.containerWith, h.right.content⟩

theorem encodeItem_pos (item : ContainerId × Content) : 0 < (encodeItem item).length := by
  apply length_pos_append
  cases item.1 with
  | root name kind =>
    unfold encodeContainer encodeContainerWith
    exact length_pos_append (length_pos_append (encodeNat_pos 0) _) _
  | child id kind =>
    unfold encodeContainer encodeContainerWith
    exact length_pos_append (length_pos_append (length_pos_append (encodeNat_pos 1) _) _) _

theorem encodeOpId_pos (id : OpId) : 0 < (encodeOpId id).length :=
  length_pos_append (encodeNat_pos _) _

structure Record.Fits (r : Record) : Prop where
  id_fits : r.id.Fits
  lamport_fits : r.lamport ≤ Word.top
  timestamp_fits : Int64Fits r.timestamp
  deps_fit : ∀ id ∈ r.deps, id.Fits
  items_fit : ∀ item ∈ r.items, ItemFits item

structure Record.Sized (r : Record) : Prop where
  deps_sized : LengthFits r.deps.length
  items_sized : LengthFits r.items.length
  contents_sized : ∀ item ∈ r.items, ItemSized item

theorem Countable.record {r : Record} (h : Countable (encodeRecord r)) : r.Sized where
  deps_sized := h.left.right.list_length encodeOpId_pos
  items_sized := h.right.list_length encodeItem_pos
  contents_sized := fun _ hitem => (h.right.list_mem hitem).item

theorem reads_record {r : Record} (hfit : r.Fits) (hsize : r.Sized) :
    Reads decodeRecord (encodeRecord r) r := by
  unfold encodeRecord
  have hdeps := reads_list (fun id hid => reads_opId (hfit.deps_fit id hid)) hsize.deps_sized
  have hitems := reads_list (fun item hitem => reads_item (hfit.items_fit item hitem)
    (hsize.contents_sized item hitem)) hsize.items_sized
  rw [List.append_assoc, List.append_assoc, List.append_assoc]
  refine (reads_opId hfit.id_fits).bind ?_
  refine (reads_word hfit.lamport_fits).bind ?_
  refine (reads_int hfit.timestamp_fits).bind ?_
  refine hdeps.bind ?_
  exact hitems.map (Record.mk r.id r.lamport r.timestamp r.deps)

theorem encodeRecord_pos (r : Record) : 0 < (encodeRecord r).length :=
  length_pos_append (length_pos_append (length_pos_append (length_pos_append
    (encodeOpId_pos r.id) _) _) _) _

end CausalReplica.Batch
