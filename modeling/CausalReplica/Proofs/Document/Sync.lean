import CausalReplica.Proofs.Document.Network
import CausalReplica.Proofs.Log.Sync

/-!
# One document imports what another exports

In a network of documents, an export against any version that the receiver covers brings the
receiver up to the sender, as if the changes had been handed over without being written.
-/

namespace CausalReplica.Document.Network

variable {ι : Type u} {owner : Peer → ι} {whole : ChangeLog} {fresh net : Network ι}
  {i j : ι} {v : VersionVector} {now now' : Int} {bytes : List UInt8}

/-- How `bytes`, which hold what the log of `i` does beyond `v`, are imported by `j`. -/
structure Pulls (net : Network ι) (i j : ι) (v : VersionVector) (bytes : List UInt8) (now : Int)
    (whole : ChangeLog) : Prop where
  sound : whole.Sound
  source : (net.docs i).log.ReplicaOf whole
  committed : ((net.docs j).commit none now).1.log.ReplicaOf whole
  absorbs : whole.Absorbs ((net.docs j).commit none now).1.log
    ((net.docs i).log.changesSince v ++ ((net.docs j).commit none now).1.log.pending.toList)
    ((net.docs j).importBatches [bytes] now).1.log
  accepts : ∃ status, ((net.docs j).importBatches [bytes] now).2 = .ok status
  log_eq : ((net.docs j).importBatches [bytes] now).1.log =
    (((net.docs j).commit none now).1.log.importChanges ((net.docs i).log.changesSince v)).1

namespace Pulls

variable (h : Pulls net i j v bytes now whole)
include h

theorem vv_le_committed (hruns : (net.docs j).log.Runs) (p : Peer) :
    (net.docs j).log.vv.get p ≤ ((net.docs j).commit none now).1.log.vv.get p :=
  commit_partOf.vv_le hruns h.committed.sound.runs p

theorem committed_vv_le (p : Peer) :
    ((net.docs j).commit none now).1.log.vv.get p ≤
      ((net.docs j).importBatches [bytes] now).1.log.vv.get p :=
  h.absorbs.grows.vv_le h.committed.sound.runs h.absorbs.replica.sound.runs p

theorem source_vv_le (hruns : (net.docs j).log.Runs)
    (hv : ∀ p, v.get p ≤ (net.docs j).log.vv.get p) (p : Peer) :
    (net.docs i).log.vv.get p ≤ ((net.docs j).importBatches [bytes] now).1.log.vv.get p := by
  apply ChangeLog.vv_le_of_contains
  intro x hx
  have hcovered : ∀ p, v.get p ≤ ((net.docs j).commit none now).1.log.vv.get p :=
    fun p => Nat.le_trans (hv p) (h.vv_le_committed hruns p)
  exact h.absorbs.contains_of_source h.committed h.source h.sound hcovered hx

end Pulls

variable [DecidableEq ι]

theorem Tracks.pulls (h : Tracks owner net whole) (now : Int) (hcount : Batch.Countable bytes)
    (hbytes : bytes = Batch.encode ((net.docs i).log.changesSince v))
    (hcommit : ((net.docs j).commit none now).2 = .ok ()) :
    ∃ later, Pulls net i j v bytes now later := by
  obtain ⟨cs, hread, hperm, hissued⟩ := h.sent_changesSince hbytes hcount
  obtain ⟨later, hlater, hgrow⟩ := h.commit j none now
  have hreplica := hlater.share.replica j
  rw [docs_put_self] at hreplica
  obtain ⟨habs, haccept⟩ := hreplica.importChanges hlater.share.sound
    (fun c hc => (hissued c (hperm.mem_iff.mpr hc)).mono hgrow)
  -- The batch comes in another order, which makes no difference.
  have hsame : ∀ log : ChangeLog,
      log.importChanges cs = log.importChanges ((net.docs i).log.changesSince v) := fun log =>
    ChangeLog.importChanges_eq_of_perm hperm fun c hc d hd =>
      (hissued c hc).eq_of_id (hissued d hd) h.share.sound.runs
  rw [← hsame] at habs haccept
  obtain ⟨registry, observers, heq⟩ :=
    importBatches_of_decodeAll hcommit (decodeAll_singleton hread) haccept
  have hlog : ((net.docs j).importBatches [bytes] now).1.log =
      (((net.docs j).commit none now).1.log.importChanges cs).1 := by rw [heq]
  refine ⟨later, hlater.share.sound, (h.share.replica i).mono hgrow, hreplica, ?_, ?_, ?_⟩
  · rwa [hlog]
  · exact ⟨_, congrArg Prod.snd heq⟩
  · rw [hlog, hsame]

/-- When both documents can commit, the receiver imports what the sender exports against a version
the receiver covers. It then knows all that the sender knows, and nothing the sender knows waits. -/
theorem sync (hfresh : fresh.Fresh) (hrun : Steps fresh net) (i j : ι) (v : VersionVector)
    (now now' : Int) :
    let sender := ((net.docs i).exportFrom v now).1
    let receiver := (net.put i sender).docs j
    let committed := (receiver.commit none now').1
    ((net.docs i).commit none now).2 = .ok () → (receiver.commit none now').2 = .ok () →
    (∀ p, v.get p ≤ receiver.log.vv.get p) →
    ∃ bytes, ((net.docs i).exportFrom v now).2 = .ok bytes ∧ (Batch.Countable bytes →
      let merged := (receiver.importBatches [bytes] now').1
      (∃ status, (receiver.importBatches [bytes] now').2 = .ok status) ∧
      merged.log.vv.includesAll sender.log.vv = true ∧
      merged.log.vv.includesAll receiver.log.vv = true ∧
      (∀ c ∈ merged.log.pending.toList, ∀ x, c.contains x = true → sender.log.contains x = false) ∧
      (receiver.log.pending.toList = [] →
        merged.log.vv = committed.log.vv.merge sender.log.vv) ∧
      merged.log = (committed.log.importChanges (sender.log.changesSince v)).1) := by
  intro sender receiver committed hsend hreceive hv
  have : Nonempty ι := ⟨i⟩
  obtain ⟨owner, whole, h⟩ := hrun.exists_tracks hfresh
  obtain ⟨mid, hmid, _⟩ := h.commit i none now
  rw [← exportFrom_fst (v := v)] at hmid
  refine ⟨_, exportFrom_of_commit_ok hsend, fun hcount => ?_⟩
  obtain ⟨later, hp⟩ := hmid.pulls (i := i) (j := j) (v := v) now' hcount
    (by rw [docs_put_self, exportFrom_fst]) hreceive
  have hself : (net.put i sender).docs i = sender := docs_put_self
  have hruns : receiver.log.Runs := (hmid.share.replica j).sound.runs
  have hsource := hp.source_vv_le hruns hv
  have hcommitted : ∀ p, receiver.log.vv.get p ≤ committed.log.vv.get p := hp.vv_le_committed hruns
  refine ⟨hp.accepts, ?_, ?_, fun c hc x hx => ?_, fun hbuffer => ?_, ?_⟩
  · rw [← hself]
    exact VersionVector.includesAll_iff.mpr hsource
  · exact VersionVector.includesAll_iff.mpr fun p =>
      Nat.le_trans (hcommitted p) (hp.committed_vv_le p)
  · rw [← hself]
    exact hp.absorbs.replica.not_contains_of_waiting hp.source hp.sound (hsource c.peer) hc hx
  · have hnone : committed.log.pending.toList = [] :=
      (congrArg PendingChanges.toList commit_pending).trans hbuffer
    have habs := hp.absorbs
    rw [hnone, List.append_nil] at habs
    rw [← hself]
    exact habs.vv_eq_merge hp.committed hp.source hp.sound
      (fun p => Nat.le_trans (hv p) (hcommitted p)) hnone
  · rw [← hself]
    exact hp.log_eq

theorem sync_typed :
    ∃ bytes, ((typed.docs true).exportFrom .empty 0).2 = .ok bytes ∧
      ((typed.docs false).importBatches [bytes] 0).1.log.vv =
        ((typed.docs false).commit none 0).1.log.vv.merge
          ((typed.docs true).exportFrom .empty 0).1.log.vv ∧
      ((typed.docs true).exportFrom .empty 0).1.log.vv.get ⟨1⟩ = 2 := by
  have hcount : ∀ bytes ∈ ((typed.docs true).exportFrom .empty 0).2.toOption,
      bytes.length < UInt64.size := by decide +kernel
  obtain ⟨bytes, hbytes, hsync⟩ :=
    sync fresh_pair steps_typed true false .empty 0 0 rfl rfl fun _ => Nat.zero_le _
  obtain ⟨_, _, _, _, hvv, _⟩ := hsync (hcount bytes (by rw [hbytes]; rfl))
  exact ⟨bytes, hbytes, hvv rfl, rfl⟩

end CausalReplica.Document.Network
