import CausalReplica.Proofs.Log.Delivery
import CausalReplica.Proofs.Log.Reachable
import Mathlib.Logic.Function.Basic

/-!
# Logs that exchange their changes

Each peer's changes are appended to one log, its owner, and reach the others as slices that were
handed out before, in any order and any number of times. Taken together the logs hold one history,
of which every log is a replica. So what is delivered decides the outcome, and how does not matter.
-/

namespace CausalReplica.ChangeLog

variable {ι : Type u} {owner : Peer → ι} {logs : ι → ChangeLog}
  {log whole later : ChangeLog} {c : Change} {x y : OpId} {i : ι} {p : Peer}

/-- The logs hold `whole` together, each all changes of the peers it owns. -/
structure Share (owner : Peer → ι) (logs : ι → ChangeLog) (whole : ChangeLog) : Prop where
  sound : whole.Sound
  own : ∀ p, (logs (owner p)).changesOf p = whole.changesOf p
  replica : ∀ i, (logs i).ReplicaOf whole

theorem ReplicaOf.mono (h : log.ReplicaOf whole) (hgrow : whole.PartOf later) :
    log.ReplicaOf later where
  sound := h.sound
  partOf := h.partOf.trans hgrow
  issued := fun m c hc => (h.issued m c hc).mono hgrow
  filed := h.filed
  nodup := h.nodup

theorem replicaOf_empty : empty.ReplicaOf empty where
  sound := sound_empty
  partOf := .refl empty
  issued := fun _ _ hc => absurd hc List.not_mem_nil
  filed := fun _ _ hc => absurd hc List.not_mem_nil
  nodup := fun _ => List.nodup_nil

/-- What the owner of a peer admits as its next change continues the whole history. -/
theorem Admits.of_partOf (ha : log.Admits c) (hl : log.Runs) (hw : whole.Runs)
    (hp : log.PartOf whole) (hown : log.changesOf c.peer = whole.changesOf c.peer) :
    whole.Admits c where
  wellFormed := ha.wellFormed
  start_eq := ha.start_eq.trans ((hl c.peer).last_unique (hown ▸ hw c.peer))
  parent_earlier := fun d hd => by
    obtain ⟨lamport, hlam, hlt⟩ := ha.parent_earlier d hd
    have hin := hl.lamportOf?_eq_some hlam
    exact ⟨lamport, (hp.lamportOf? hl hw hin).symm.trans hlam, hlt⟩

theorem PartOf.insert (hp : log.PartOf whole)
    (hown : log.changesOf c.peer = whole.changesOf c.peer) :
    (log.insert c).PartOf (whole.insert c) := by
  intro p
  rw [changesOf_insert, changesOf_insert]
  split
  · next hpc => exact ⟨[], by rw [hpc, hown, List.append_nil]⟩
  · exact hp p

/-- The buffer of a log misses nothing of the peers it owns, so it stands after an append. -/
theorem ReplicaOf.insert_own (h : log.ReplicaOf whole) (hw : whole.Sound) (ha : log.Admits c)
    (hown : log.changesOf c.peer = whole.changesOf c.peer) :
    (log.insert c).ReplicaOf (whole.insert c) where
  sound := ha.sound_insert h.sound
  partOf := h.partOf.insert hown
  issued := fun m d hd => (h.issued m d hd).mono partOf_insert
  filed := fun m d hd => by
    have hmiss := h.filed m d hd
    obtain ⟨hnot, hparent⟩ := missing?_spec hmiss
    apply missing?_of_grow hmiss h.sound.runs (ha.runs_insert h.sound.runs) partOf_insert
    apply Bool.eq_false_iff.mpr
    intro hin
    rcases ha.contains_insert.mp hin with hin | hin
    · rw [hnot] at hin
      exact nomatch hin
    · have hpeer := (Change.contains_iff.mp hin).1
      have hknown := hw.contains_parent ((h.issued m d hd).parent hw.runs hparent)
      obtain ⟨e, he, hem⟩ := hw.runs.exists_change hknown
      rw [hpeer, ← hown, ← hpeer] at he
      rw [h.sound.runs.contains_of_mem he hem] at hnot
      exact nomatch hnot
  nodup := h.nodup

namespace Share

theorem empty : Share owner (fun _ => ChangeLog.empty) ChangeLog.empty where
  sound := sound_empty
  own := fun _ => rfl
  replica := fun _ => replicaOf_empty

theorem partOf_owner (h : Share owner logs whole) (i : ι) (p : Peer) :
    (logs i).changesOf p <+: (logs (owner p)).changesOf p := by
  rw [h.own p]
  exact (h.replica i).partOf p

theorem parent_iff (h : Share owner logs whole) :
    whole.Parent y x ↔ ∃ i, (logs i).Parent y x := by
  constructor
  · intro hp
    refine ⟨owner x.peer, ?_⟩
    unfold Parent
    rw [h.own x.peer]
    exact hp
  · intro ⟨i, hp⟩
    exact (h.replica i).partOf.parent hp

variable [DecidableEq ι]

/-- An append by the owner of a peer adds the change to the history. -/
theorem insert (h : Share owner logs whole) (ha : (logs (owner c.peer)).Admits c) :
    Share owner (Function.update logs (owner c.peer) ((logs (owner c.peer)).insert c))
      (whole.insert c) := by
  have hown := h.own c.peer
  have hlog := h.replica (owner c.peer)
  have hwhole := ha.of_partOf hlog.sound.runs h.sound.runs hlog.partOf hown
  refine ⟨hwhole.sound_insert h.sound, fun q => ?_, fun j => ?_⟩
  · rw [changesOf_insert]
    by_cases hq : owner q = owner c.peer
    · rw [hq, Function.update_self, changesOf_insert, ← hq, h.own q]
    · rw [Function.update_of_ne hq, h.own q, if_neg]
      intro hqc
      exact hq (congrArg owner hqc)
  · by_cases hj : j = owner c.peer
    · rw [hj, Function.update_self]
      exact hlog.insert_own h.sound ha hown
    · rw [Function.update_of_ne hj]
      exact (h.replica j).mono partOf_insert

/-- A log that takes in more of the history still holds all changes of its own peers. -/
theorem update (h : Share owner logs whole) (hgrow : (logs i).PartOf later)
    (hlater : later.ReplicaOf whole) : Share owner (Function.update logs i later) whole := by
  refine ⟨h.sound, fun q => ?_, fun j => ?_⟩
  · by_cases hq : owner q = i
    · have hback : whole.changesOf q <+: later.changesOf q := by
        rw [← h.own q, hq]
        exact hgrow q
      rw [hq, Function.update_self]
      exact (hlater.partOf q).eq_of_length_le hback.length_le
    · rw [Function.update_of_ne hq]
      exact h.own q
  · by_cases hj : j = i
    · rw [hj, Function.update_self]
      exact hlater
    · rw [Function.update_of_ne hj]
      exact h.replica j

end Share

/-- Logs, and the changes and slices that they have handed out. -/
structure Network (ι : Type u) where
  logs : ι → ChangeLog
  sent : List Change

namespace Network

variable {net next past : Network ι}

def initial : Network ι := ⟨fun _ => .empty, []⟩

/-- Some log says that `y` is a parent of `x`. -/
def Parent (net : Network ι) (y x : OpId) : Prop := ∃ i, (net.logs i).Parent y x

def AtOrBefore (net : Network ι) : OpId → OpId → Prop := Relation.ReflTransGen net.Parent

structure Tracks (owner : Peer → ι) (net : Network ι) (whole : ChangeLog) : Prop where
  share : Share owner net.logs whole
  sent_issued : ∀ c ∈ net.sent, whole.Issues c

theorem tracks_initial : Tracks owner initial empty where
  share := .empty
  sent_issued := fun _ hc => absurd hc List.not_mem_nil

theorem Tracks.atOrBefore_iff (h : Tracks owner net whole) :
    whole.AtOrBefore y x ↔ net.AtOrBefore y x := by
  have heq : whole.Parent = net.Parent := by
    funext y x
    exact propext h.share.parent_iff
  unfold ChangeLog.AtOrBefore AtOrBefore
  rw [heq]

variable [DecidableEq ι]

def put (net : Network ι) (i : ι) (log : ChangeLog) : Network ι :=
  { net with logs := Function.update net.logs i log }

inductive Step (owner : Peer → ι) : Network ι → Network ι → Prop
  | append (net : Network ι) (p : Peer) (items : List (ContainerId × Content)) (deps : Frontiers)
      (timestamp : Int) :
      Step owner net
        (net.put (owner p) ((net.logs (owner p)).appended p items deps timestamp))
  | send (net : Network ι) (i : ι) (v : VersionVector) :
      Step owner net { net with sent := net.sent ++ (net.logs i).changesSince v }
  | deliver (net : Network ι) (i : ι) (cs : List Change) (h : ∀ c ∈ cs, c ∈ net.sent) :
      Step owner net (net.put i ((net.logs i).importChanges cs).1)

def Steps (owner : Peer → ι) : Network ι → Network ι → Prop := Relation.ReflTransGen (Step owner)

theorem Tracks.append (h : Tracks owner net whole) (p : Peer)
    (items : List (ContainerId × Content)) (deps : Frontiers) (timestamp : Int) :
    ∃ later, Tracks owner
        (net.put (owner p) ((net.logs (owner p)).appended p items deps timestamp)) later ∧
      whole.PartOf later := by
  unfold ChangeLog.appended
  split
  · next next c hok =>
    obtain ⟨hc, rfl⟩ := append_ok hok
    obtain ⟨ha, rfl, _⟩ := nextChange_admits hc (h.share.replica _).sound
    exact ⟨whole.insert c, ⟨h.share.insert ha, fun d hd => (h.sent_issued d hd).mono partOf_insert⟩,
      partOf_insert⟩
  · refine ⟨whole, ⟨?_, h.sent_issued⟩, .refl whole⟩
    exact h.share.update (.refl _) (h.share.replica _)

theorem Step.tracks (hs : Step owner net next) (h : Tracks owner net whole) :
    ∃ later, Tracks owner next later ∧ whole.PartOf later := by
  cases hs with
  | append p items deps timestamp => exact h.append p items deps timestamp
  | send i v =>
    refine ⟨whole, ⟨h.share, fun c hc => ?_⟩, .refl whole⟩
    rcases List.mem_append.mp hc with hc | hc
    · exact h.sent_issued c hc
    · have hlog := h.share.replica i
      exact (issues_changesSince hlog.sound.runs hc).mono hlog.partOf
  | deliver i cs hcs =>
    have hissued : ∀ c ∈ cs, whole.Issues c := fun c hc => h.sent_issued c (hcs c hc)
    obtain ⟨habs, _⟩ := (h.share.replica i).importChanges h.share.sound hissued
    exact ⟨whole, ⟨h.share.update habs.grows habs.replica, h.sent_issued⟩, .refl whole⟩

theorem Steps.tracks (hs : Steps owner net next) (h : Tracks owner net whole) :
    ∃ later, Tracks owner next later ∧ whole.PartOf later := by
  unfold Steps at hs
  induction hs with
  | refl => exact ⟨whole, h, .refl whole⟩
  | tail _ step ih =>
    obtain ⟨mid, hmid, hgrow⟩ := ih
    obtain ⟨later, hlater, hstep⟩ := step.tracks hmid
    exact ⟨later, hlater, hgrow.trans hstep⟩

/-- What was handed out until now comes to a log that stood at an earlier moment and had nothing
waiting. Then the operations with all their history at hand are in the log, the changes that are not
known in full wait, and neither the order nor the grouping nor repetitions make a difference. -/
theorem delivery_order_independent {batches : List (List Change)}
    (hpast : Steps owner initial past) (hnet : Steps owner past net)
    (hbuffer : (past.logs i).pending.toList = [])
    (hsent : ∀ c ∈ batches.flatten, c ∈ net.sent) :
    let log := past.logs i
    let final := log.deliver batches
    log.Accepts batches ∧ (∀ p, final.changesOf p <+: (net.logs (owner p)).changesOf p) ∧
    (∀ x, final.contains x = true ↔ log.contains x = true ∨ ∀ y, net.AtOrBefore y x →
      log.contains y = true ∨ ∃ c ∈ batches.flatten, c.contains y = true) ∧
    (∀ c, c ∈ final.pending.toList ↔
      c ∈ batches.flatten ∧ ∃ x, c.contains x = true ∧ final.contains x = false) ∧
    ∀ batches' : List (List Change), (∀ c, c ∈ batches'.flatten ↔ c ∈ batches.flatten) →
      (log.deliver batches').changes = final.changes ∧ (log.deliver batches').vv = final.vv ∧
        (log.deliver batches').frontiers = final.frontiers ∧
        (log.deliver batches').nextLamport = final.nextLamport ∧
        (log.deliver batches').pendingSpans = final.pendingSpans := by
  intro log final
  obtain ⟨early, hearly, _⟩ := hpast.tracks tracks_initial
  obtain ⟨whole, hwhole, hgrow⟩ := hnet.tracks hearly
  have hsound := hwhole.share.sound
  have hlog : log.ReplicaOf whole := (hearly.share.replica i).mono hgrow
  have hissued : ∀ c ∈ batches.flatten, whole.Issues c :=
    fun c hc => hwhole.sent_issued c (hsent c hc)
  have hdeliver : ∀ bs : List (List Change), (∀ c, c ∈ bs.flatten ↔ c ∈ batches.flatten) →
      Absorbs whole log bs.flatten (log.deliver bs) ∧ log.Accepts bs := by
    intro bs hbs
    have hissues : ∀ b ∈ bs, ∀ c ∈ b, whole.Issues c :=
      fun b hb c hc => hissued c ((hbs c).mp (List.mem_flatten.mpr ⟨b, hb, hc⟩))
    have hrun := hlog.deliver hsound hissues
    rwa [hbuffer, List.append_nil] at hrun
  obtain ⟨habs, haccepts⟩ := hdeliver batches fun _ => Iff.rfl
  refine ⟨haccepts, fun p => ?_, fun x => ?_, fun c => habs.mem_waiting_iff hsound,
    fun batches' hsame => ?_⟩
  · rw [hwhole.share.own p]
    exact habs.replica.partOf p
  · simp only [← hwhole.atOrBefore_iff]
    exact habs.contains_iff_covered hlog hsound hissued
  · obtain ⟨habs', _⟩ := hdeliver batches' hsame
    obtain ⟨⟨hchanges, hvv, hfrontiers, hclock⟩, hspans⟩ :=
      habs'.unique habs hlog hsound (fun c hc => hissued c ((hsame c).mp hc)) hsame
    exact ⟨hchanges, hvv, hfrontiers, congrArg LamportClock.next hclock, hspans⟩

theorem delivery_order_independent_late_first :
    let c : Change := ⟨⟨⟨1⟩, 0⟩, 0, .empty, 0, [⟨0, .root "t" .text, .insertText 0 "ab"⟩]⟩
    let d : Change := ⟨⟨⟨1⟩, 2⟩, 2, .empty, 0, [⟨2, .root "t" .text, .insertText 2 "c"⟩]⟩
    empty.Accepts [[d], [c, d]] ∧
      (empty.deliver [[c], [d]]).changes = (empty.deliver [[d], [c, d]]).changes := by
  intro c d
  let owner : Peer → Bool := fun p => p.number == 1
  let one := initial.put (owner ⟨1⟩)
    (empty.appended ⟨1⟩ [(.root "t" .text, .insertText 0 "ab")] .empty 0)
  let two := one.put (owner ⟨1⟩)
    ((one.logs (owner ⟨1⟩)).appended ⟨1⟩ [(.root "t" .text, .insertText 2 "c")] .empty 0)
  let net := { two with sent := two.sent ++ (two.logs true).changesSince .empty }
  have first : Step owner initial one := .append initial ⟨1⟩ ..
  have second : Step owner one two := .append one ⟨1⟩ ..
  have steps : Steps owner initial net := ((Relation.ReflTransGen.single first).tail second).tail
    (.send two true .empty)
  obtain ⟨_, tracks, _⟩ := steps.tracks tracks_initial
  have runs : (two.logs true).Runs := (tracks.share.replica true).sound.runs
  have same : ∀ e, e ∈ [[c], [d]].flatten ↔ e ∈ [[d], [c, d]].flatten := by
    intro e
    change e ∈ [c, d] ↔ e ∈ [d, c, d]
    constructor
    · intro he
      exact List.mem_cons_of_mem d he
    · intro he
      rcases List.mem_cons.mp he with rfl | he
      · exact List.mem_cons_of_mem c List.mem_cons_self
      · exact he
  have sent : ∀ e ∈ [[d], [c, d]].flatten, e ∈ net.sent := by
    intro e he
    apply List.mem_append_right
    apply (mem_changesSince runs).mpr
    rcases List.mem_cons.mp ((same e).mpr he) with rfl | he
    · exact ⟨c, by decide, by decide, rfl⟩
    · cases List.mem_singleton.mp he
      exact ⟨d, by decide, by decide, rfl⟩
  obtain ⟨haccepts, _, _, _, hsame⟩ :=
    delivery_order_independent (i := false) .refl steps rfl sent
  exact ⟨haccepts, (hsame _ same).1⟩

end Network

end CausalReplica.ChangeLog
