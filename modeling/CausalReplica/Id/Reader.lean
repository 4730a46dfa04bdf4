import CausalReplica.Error
import CausalReplica.Word

/-!
# Reading ids from text

Peers and counters are numerals that may carry a plus sign and leading zeros, so several texts
can name one id; what `toText` writes is among them.
-/

namespace CausalReplica

def Peer.ofNumeral (s : String) : Except Numeral.Fault Peer :=
  (Numeral.ofText (UInt64.size - 1) s).map fun n => ⟨UInt64.ofNat n⟩

def Peer.read (s : String) : Except Error Peer :=
  (Peer.ofNumeral s).mapError fun fault => .decode (.badPeer s fault)

def Kind.read (s : String) : Except Error Kind :=
  match Kind.ofName? s with
  | some kind => .ok kind
  | none => .error (.decode (.badKind s))

/-- The parts before and after the first `sep`. -/
def splitAtFirst (sep : Char) : List Char → Option (List Char × List Char)
  | [] => none
  | c :: cs =>
    if c = sep then some ([], cs) else (splitAtFirst sep cs).map fun (a, b) => (c :: a, b)

/-- Reads the form `counter:Kind@peer` of a child container. A text without that shape or with a
bad counter is malformed as a whole; a bad peer is reported before a bad kind. -/
def ContainerId.read (s : String) : Except Error ContainerId :=
  let malformed : Except Error ContainerId := .error (.decode (.badContainer s))
  match splitAtFirst ':' s.toList with
  | none => malformed
  | some (counter, rest) =>
    match splitAtFirst '@' rest with
    | none => malformed
    | some (kind, peer) =>
      match Numeral.read Word.top counter with
      | .error _ => malformed
      | .ok counter => do
        let peer ← Peer.read (String.ofList peer)
        let kind ← Kind.read (String.ofList kind)
        return .child ⟨peer, counter⟩ kind

end CausalReplica
