import CausalReplica.Proofs.Document.Exchange
import CausalReplica.Proofs.Log.Network
import Mathlib

/-!
# Documents that exchange batches

Documents with peers of their own are edited, commit, and send each other batches, which may be
lost, repeated and reordered. Their logs share one history, to which only the owner of a peer adds
changes of that peer, and whatever was exported is a piece of it.
-/

namespace CausalReplica.Document

variable {ι : Type u} {owner : Peer → ι} {whole later : ChangeLog} {d : Document} {c : Change}
  {i : ι} {v : VersionVector} {origin : Option String} {now : Int} {bytes : List UInt8}
  {batches : List (List UInt8)}

/-- Documents, and the batches that they have exported. -/
structure Network (ι : Type u) where
  docs : ι → Document
  sent : List (List UInt8)

namespace Network

variable {net next fresh : Network ι}

/-- New documents, each with another peer, that leave their changes without times. -/
structure Fresh (net : Network ι) : Prop where
  made : ∀ i, ∃ config drawn, config.recordTimestamp = false ∧ net.docs i = .ofConfig config drawn
  peers_differ : Function.Injective fun i => (net.docs i).peer
  sent_eq : net.sent = []

/-- The documents share `whole`, and the batches hold pieces of it. -/
structure Tracks (owner : Peer → ι) (net : Network ι) (whole : ChangeLog) : Prop where
  share : ChangeLog.Share owner (fun i => (net.docs i).log) whole
  owner_peer : ∀ i, owner (net.docs i).peer = i
  exists_peer : ∀ p, whole.changesOf p ≠ [] → ∃ i, (net.docs i).peer = p
  fits : whole.Fits
  items_fit : ∀ i, ∀ item ∈ (net.docs i).txn.items, ItemFits item
  untimed : ∀ i, (net.docs i).config.recordTimestamp = false
  sent_read : ∀ b ∈ net.sent, ∃ cs, Batch.decode b = .ok ⟨cs, none⟩ ∧ ∀ c ∈ cs, whole.Issues c

theorem Fresh.log_eq (h : fresh.Fresh) (i : ι) : (fresh.docs i).log = .empty := by
  obtain ⟨config, drawn, _, hdoc⟩ := h.made i
  rw [hdoc]
  rfl

theorem Fresh.tracks (h : fresh.Fresh) (howner : ∀ i, owner (fresh.docs i).peer = i) :
    Tracks owner fresh .empty where
  share := by
    rw [funext h.log_eq]
    exact .empty
  owner_peer := howner
  exists_peer := fun p hp => absurd rfl hp
  fits := fun p c hc => absurd hc List.not_mem_nil
  items_fit := fun i item hitem => by
    obtain ⟨config, drawn, _, hdoc⟩ := h.made i
    rw [hdoc] at hitem
    exact absurd hitem List.not_mem_nil
  untimed := fun i => by
    obtain ⟨config, drawn, htime, hdoc⟩ := h.made i
    rw [hdoc]
    exact htime
  sent_read := fun b hb => by
    rw [h.sent_eq] at hb
    exact absurd hb List.not_mem_nil

variable [DecidableEq ι]

def put (net : Network ι) (i : ι) (d : Document) : Network ι :=
  { net with docs := Function.update net.docs i d }

theorem put_put {d' : Document} : (net.put i d).put i d' = net.put i d' :=
  congrArg (fun docs => (⟨docs, net.sent⟩ : Network ι)) (Function.update_idem ..)

theorem docs_put_self : (net.put i d).docs i = d := Function.update_self ..

theorem logs_put :
    (fun j => ((net.put i d).docs j).log) = Function.update (fun j => (net.docs j).log) i d.log :=
  funext fun j => Function.apply_update (fun _ => Document.log) net.docs i d j

theorem forall_put {P : ι → Document → Prop} (h : ∀ j, P j (net.docs j)) (hd : P i d) (j : ι) :
    P j ((net.put i d).docs j) := by
  by_cases hj : j = i
  · subst hj
    rwa [docs_put_self]
  · change P j (Function.update net.docs i d j)
    rw [Function.update_of_ne hj]
    exact h j

/-- One thing happens to one document. The numbers in an edit, and the length of a batch, are held
in fields of their sizes. -/
inductive Step : Network ι → Network ι → Prop
  | edit (net : Network ι) (i : ι) (e : Edit) (h : e.Fits) :
      Step net (net.put i ((net.docs i).apply e))
  | commit (net : Network ι) (i : ι) (origin : Option String) (now : Int) :
      Step net (net.put i ((net.docs i).commit origin now).1)
  | exportFrom (net : Network ι) (i : ι) (v : VersionVector) (now : Int)
      (h : ∀ bytes ∈ ((net.docs i).exportFrom v now).2.toOption, Batch.Countable bytes) :
      Step net
        { net.put i ((net.docs i).exportFrom v now).1 with
          sent := net.sent ++ ((net.docs i).exportFrom v now).2.toOption.toList }
  | importBatches (net : Network ι) (i : ι) (batches : List (List UInt8)) (now : Int)
      (h : ∀ b ∈ batches, b ∈ net.sent) :
      Step net (net.put i ((net.docs i).importBatches batches now).1)

def Steps : Network ι → Network ι → Prop := Relation.ReflTransGen Step

namespace Tracks

theorem put (h : Tracks owner net whole)
    (hshare : ChangeLog.Share owner (Function.update (fun j => (net.docs j).log) i d.log) later)
    (hgrow : whole.PartOf later) (hfits : later.Fits)
    (hpeers : ∀ p, later.changesOf p ≠ [] → whole.changesOf p ≠ [] ∨ (net.docs i).peer = p)
    (hpeer : d.peer = (net.docs i).peer) (hconfig : d.config = (net.docs i).config)
    (hitems : ∀ item ∈ d.txn.items, ItemFits item) : Tracks owner (net.put i d) later where
  share := by
    rw [logs_put]
    exact hshare
  owner_peer := by
    refine forall_put (P := fun j d => owner d.peer = j) h.owner_peer ?_
    rw [hpeer]
    exact h.owner_peer i
  exists_peer := fun p hp => by
    have hkept : ∀ j, (net.docs j).peer = ((net.put i d).docs j).peer :=
      forall_put (P := fun j d => (net.docs j).peer = d.peer) (fun _ => rfl) hpeer.symm
    simp only [← hkept]
    rcases hpeers p hp with hold | hi
    · exact h.exists_peer p hold
    · exact ⟨i, hi⟩
  fits := hfits
  items_fit := forall_put (P := fun _ d => ∀ item ∈ d.txn.items, ItemFits item) h.items_fit hitems
  untimed := by
    refine forall_put (P := fun _ d => d.config.recordTimestamp = false) h.untimed ?_
    rw [hconfig]
    exact h.untimed i
  sent_read := fun b hb => by
    obtain ⟨cs, hcs, hissued⟩ := h.sent_read b hb
    exact ⟨cs, hcs, fun c hc => (hissued c hc).mono hgrow⟩

theorem replace (h : Tracks owner net whole) (hgrow : (net.docs i).log.PartOf d.log)
    (hreplica : d.log.ReplicaOf whole) (hpeer : d.peer = (net.docs i).peer)
    (hconfig : d.config = (net.docs i).config) (hitems : ∀ item ∈ d.txn.items, ItemFits item) :
    Tracks owner (net.put i d) whole :=
  h.put (h.share.update hgrow hreplica) (.refl whole) h.fits (fun _ hp => .inl hp) hpeer hconfig
    hitems

theorem insert (h : Tracks owner net whole) (ha : (net.docs i).log.Admits c)
    (hc : c.peer = (net.docs i).peer) (hfits : c.Fits) (hlog : d.log = (net.docs i).log.insert c)
    (hpeer : d.peer = (net.docs i).peer) (hconfig : d.config = (net.docs i).config)
    (hitems : ∀ item ∈ d.txn.items, ItemFits item) :
    Tracks owner (net.put i d) (whole.insert c) := by
  have howner : owner c.peer = i := hc ▸ h.owner_peer i
  have hshare := h.share.insert (c := c) (howner.symm ▸ ha)
  rw [howner, ← hlog] at hshare
  refine h.put hshare ChangeLog.partOf_insert (ChangeLog.fits_insert h.fits hfits) (fun p hp => ?_)
    hpeer hconfig hitems
  rw [ChangeLog.changesOf_insert] at hp
  split at hp
  · next hpc => exact .inr (hc.symm.trans hpc.symm)
  · exact .inl hp

theorem edit (h : Tracks owner net whole) {e : Edit} (he : e.Fits) :
    Tracks owner (net.put i ((net.docs i).apply e)) whole := by
  have hrec : Records (net.docs i) ((net.docs i).apply e) := apply_records he
  refine h.replace ?_ ?_ hrec.peer_eq hrec.config_eq (hrec.items_fit (h.items_fit i))
  · rw [hrec.log_eq]
    exact .refl _
  · rw [hrec.log_eq]
    exact h.share.replica i

theorem commit (h : Tracks owner net whole) (i : ι) (origin : Option String) (now : Int) :
    ∃ later, Tracks owner (net.put i ((net.docs i).commit origin now).1) later ∧
      whole.PartOf later := by
  have hitems : ∀ item ∈ ((net.docs i).commit origin now).1.txn.items, ItemFits item := by
    rw [commit_items]
    exact fun _ hitem => absurd hitem List.not_mem_nil
  rcases commit_change origin now (h.share.replica i).sound (h.items_fit i)
    (h.untimed i) with hlog | ⟨c, hc, ha, hfits, hlog⟩
  · refine ⟨whole, h.replace ?_ ?_ commit_peer commit_config hitems, .refl whole⟩
    · rw [hlog]
      exact .refl _
    · rw [hlog]
      exact h.share.replica i
  · exact ⟨whole.insert c, h.insert ha hc hfits hlog commit_peer commit_config hitems,
      ChangeLog.partOf_insert⟩

omit [DecidableEq ι] in
/-- What a document exports after its commit is a piece of the history. -/
theorem sent_changesSince (h : Tracks owner net whole)
    (hbytes : bytes = Batch.encode ((net.docs i).log.changesSince v))
    (hcount : Batch.Countable bytes) :
    ∃ cs, Batch.decode bytes = .ok ⟨cs, none⟩ ∧ cs.Perm ((net.docs i).log.changesSince v) ∧
      ∀ c ∈ cs, whole.Issues c := by
  have hlog := h.share.replica i
  subst hbytes
  obtain ⟨cs, hread, hperm⟩ :=
    ChangeLog.decode_changesSince hlog.sound.runs (h.fits.of_partOf hlog.partOf) hcount
  refine ⟨cs, hread, hperm, fun c hc => ?_⟩
  exact (ChangeLog.issues_changesSince hlog.sound.runs (hperm.mem_iff.mp hc)).mono hlog.partOf

theorem exportFrom (h : Tracks owner net whole)
    (hcount : ∀ bytes ∈ ((net.docs i).exportFrom v now).2.toOption, Batch.Countable bytes) :
    ∃ later,
      Tracks owner
        { net.put i ((net.docs i).exportFrom v now).1 with
          sent := net.sent ++ ((net.docs i).exportFrom v now).2.toOption.toList } later ∧
      whole.PartOf later := by
  obtain ⟨later, hlater, hgrow⟩ := h.commit i none now
  rw [exportFrom_fst]
  refine ⟨later, { hlater with sent_read := fun b hb => ?_ }, hgrow⟩
  rcases List.mem_append.mp hb with hb | hb
  · exact hlater.sent_read b hb
  · cases hres : ((net.docs i).exportFrom v now).2 with
    | error e =>
      rw [hres] at hb
      exact absurd hb List.not_mem_nil
    | ok bytes =>
      rw [hres] at hb hcount
      cases List.mem_singleton.mp hb
      obtain ⟨_, hbytes⟩ := exportFrom_ok hres
      obtain ⟨cs, hread, _, hissued⟩ := hlater.sent_changesSince (i := i) (v := v)
        (by rw [docs_put_self]; exact hbytes) (hcount b rfl)
      exact ⟨cs, hread, hissued⟩

theorem importBatches (h : Tracks owner net whole) (hsent : ∀ b ∈ batches, b ∈ net.sent) :
    (∃ later, Tracks owner (net.put i ((net.docs i).importBatches batches now).1) later ∧
      whole.PartOf later) ∧
    ∀ e, ((net.docs i).importBatches batches now).2 = .error e →
      ((net.docs i).commit none now).2 = .error e := by
  obtain ⟨later, hlater, hgrow⟩ := h.commit i none now
  cases hcommit : ((net.docs i).commit none now).2 with
  | error e =>
    rw [importBatches_of_commit_error hcommit]
    refine ⟨⟨later, hlater, hgrow⟩, fun e' he => ?_⟩
    cases he
    rfl
  | ok =>
    obtain ⟨cs, hread, hissued⟩ := decodeAll_ok fun b hb => hlater.sent_read b (hsent b hb)
    have hreplica := hlater.share.replica i
    rw [docs_put_self] at hreplica
    obtain ⟨habs, haccept⟩ := hreplica.importChanges hlater.share.sound hissued
    obtain ⟨registry, observers, heq⟩ := importBatches_of_decodeAll hcommit hread haccept
    rw [heq]
    refine ⟨⟨later, ?_, hgrow⟩, fun _ he => nomatch he⟩
    rw [← put_put (d := ((net.docs i).commit none now).1)]
    apply hlater.replace
    · rw [docs_put_self]
      exact habs.grows
    · exact habs.replica
    · rw [docs_put_self]
    · rw [docs_put_self]
    · change ∀ item ∈ ((net.docs i).commit none now).1.txn.items, ItemFits item
      rw [commit_items]
      exact fun _ hitem => absurd hitem List.not_mem_nil

end Tracks

theorem Step.tracks (hs : Step net next) (h : Tracks owner net whole) :
    ∃ later, Tracks owner next later ∧ whole.PartOf later := by
  cases hs with
  | edit i e he => exact ⟨whole, h.edit he, .refl whole⟩
  | commit i origin now => exact h.commit i origin now
  | exportFrom i v now hcount => exact h.exportFrom hcount
  | importBatches i batches now hsent => exact (h.importBatches hsent).1

theorem Steps.tracks (hs : Steps net next) (h : Tracks owner net whole) :
    ∃ later, Tracks owner next later := by
  unfold Steps at hs
  induction hs with
  | refl => exact ⟨whole, h⟩
  | tail _ step ih =>
    obtain ⟨mid, hmid⟩ := ih
    obtain ⟨later, hlater, _⟩ := step.tracks hmid
    exact ⟨later, hlater⟩

/-- After any run the documents share a history. -/
theorem Steps.exists_tracks [Nonempty ι] (hs : Steps fresh net) (hfresh : fresh.Fresh) :
    ∃ owner whole, Tracks owner net whole :=
  ⟨Function.invFun fun i => (fresh.docs i).peer,
    hs.tracks (hfresh.tracks (Function.leftInverse_invFun hfresh.peers_differ))⟩

/-- Whatever the documents did and however their batches traveled, the changes of a peer are those
that its owner has, as far as they are known. So documents of one version hold the same log, in the
same causal order. An import of what was exported fails only if what it commits first cannot be. -/
theorem agreement (hfresh : fresh.Fresh) (hrun : Steps fresh net) :
    (∀ i j, (net.docs i).log.changesOf (net.docs j).peer <+:
      (net.docs j).log.changesOf (net.docs j).peer) ∧
    (∀ i p, (∀ j, (net.docs j).peer ≠ p) → (net.docs i).log.changesOf p = []) ∧
    (∀ i j, (net.docs i).log.vv = (net.docs j).log.vv →
      (net.docs i).log.allChanges = (net.docs j).log.allChanges ∧
        (net.docs i).log.frontiers = (net.docs j).log.frontiers ∧
        (net.docs i).log.nextLamport = (net.docs j).log.nextLamport ∧
        (net.docs i).log.changesInCausalOrder = (net.docs j).log.changesInCausalOrder) ∧
    ∀ i batches now e, (∀ b ∈ batches, b ∈ net.sent) →
      ((net.docs i).importBatches batches now).2 = .error e →
        ((net.docs i).commit none now).2 = .error e := by
  rcases isEmpty_or_nonempty ι with _ | _
  · exact ⟨isEmptyElim, isEmptyElim, isEmptyElim, isEmptyElim⟩
  obtain ⟨owner, whole, h⟩ := hrun.exists_tracks hfresh
  refine ⟨fun i j => ?_, fun i p hp => ?_, fun i j hvv => ?_, fun i batches now e hsent => ?_⟩
  · have hprefix := h.share.partOf_owner i (net.docs j).peer
    rwa [h.owner_peer j] at hprefix
  · have hwhole : whole.changesOf p = [] := by
      by_contra hne
      obtain ⟨j, hj⟩ := h.exists_peer p hne
      exact hp j hj
    exact List.prefix_nil.mp (hwhole ▸ (h.share.replica i).partOf p)
  · have hi := h.share.replica i
    have hj := h.share.replica j
    obtain ⟨hchanges, _, hfrontiers, hclock⟩ := hi.sound.eq_of_changesOf hj.sound fun p =>
      hi.partOf.changesOf_eq hj.partOf hi.sound.runs hj.sound.runs (by rw [hvv])
    have hall : (net.docs i).log.allChanges = (net.docs j).log.allChanges :=
      congrArg (fun changes => changes.values.flatten) hchanges
    exact ⟨hall, hfrontiers, congrArg LamportClock.next hclock, congrArg (List.mergeSort · _) hall⟩
  · exact (h.importBatches hsent).2 e

/-- Two new documents. -/
def pair : Network Bool := ⟨fun i => .ofConfig {} ⟨if i then 1 else 2⟩, []⟩

theorem fresh_pair : pair.Fresh where
  made := fun _ => ⟨{}, _, rfl, rfl⟩
  peers_differ := by
    intro i j h
    cases i <;> cases j <;> first | rfl | exact absurd h (by decide)
  sent_eq := rfl

/-- One of the two documents has a text, recorded and not yet committed. -/
def typed : Network Bool :=
  let opened := pair.put true ((pair.docs true).apply (.root "t" .text))
  let handle := ((pair.docs true).root "t" .text).2
  opened.put true ((opened.docs true).apply (.insertText handle 0 "ab"))

theorem steps_typed : Steps pair typed :=
  (Relation.ReflTransGen.single (.edit pair true (.root "t" .text) trivial)).tail
    (.edit _ true (.insertText ⟨.root "t" .text, rfl⟩ 0 "ab") trivial)

/-- The document with the text exports all it has. -/
def exported : Network Bool :=
  { typed.put true ((typed.docs true).exportFrom .empty 0).1 with
    sent := typed.sent ++ ((typed.docs true).exportFrom .empty 0).2.toOption.toList }

theorem steps_exported : Steps pair exported := by
  have hcount : ∀ bytes ∈ ((typed.docs true).exportFrom .empty 0).2.toOption,
      bytes.length < UInt64.size := by decide +kernel
  exact steps_typed.tail (.exportFrom typed true .empty 0 hcount)

/-- The other document imports what was exported. -/
def exchanged : Network Bool :=
  exported.put false ((exported.docs false).importBatches exported.sent 0).1

theorem exchanged_vv : (exchanged.docs false).log.vv = (exchanged.docs true).log.vv := by cbv

theorem exchanged_ids : (exchanged.docs false).log.allChanges.map Change.id = [⟨⟨1⟩, 0⟩] := by cbv

/-- The batch is imported without an error, and then both documents hold the text. -/
theorem agreement_one_batch :
    (∃ status, ((exported.docs false).importBatches exported.sent 0).2 = .ok status) ∧
      (exchanged.docs false).log.allChanges.map Change.id = [⟨⟨1⟩, 0⟩] ∧
      (exchanged.docs false).log.allChanges = (exchanged.docs true).log.allChanges ∧
      (exchanged.docs false).log.changesInCausalOrder =
        (exchanged.docs true).log.changesInCausalOrder := by
  obtain ⟨_, _, _, himport⟩ := agreement fresh_pair steps_exported
  have hstep : Step exported exchanged := .importBatches exported false exported.sent 0 fun _ => id
  obtain ⟨_, _, hsame, _⟩ := agreement fresh_pair (steps_exported.tail hstep)
  obtain ⟨hall, _, _, hcausal⟩ := hsame false true exchanged_vv
  refine ⟨?_, exchanged_ids, hall, hcausal⟩
  cases hres : ((exported.docs false).importBatches exported.sent 0).2 with
  | ok status => exact ⟨status, rfl⟩
  | error e =>
    have hcommit := himport false exported.sent 0 e (fun _ => id) hres
    have hempty : ((exported.docs false).commit none 0).2 = .ok () := rfl
    exact nomatch hempty.symm.trans hcommit

end Network

end CausalReplica.Document
