import SubArchive.CanonicalChain
import SubArchive.FinalityPath

/-!
# The finalized block is on the best chain

Finality makes a block the head unless it is on the best chain already, and a
block that becomes the best one is held to the finalized block by the backend.
So in no state is the last finalized block off the chain to the best one.
-/

namespace SubArchive

open Ancestry Results

section BestChain

variable {σ : Type} {store : Store σ} {codec : Codec} {parent : Hash → Option Hash}
  {root : Hash} {finalizedOf bestOf : σ → Hash}

/-- A store that moves finality and the best block as operations say, and does
not go from the best block to one by a route that retracts the finalized
block. -/
structure Store.GuardsFinality (store : Store σ) (codec : Codec) (parent : Hash → Option Hash)
    (finalizedOf bestOf : σ → Hash) : Prop where
  sequential : store.FinalizesSequentially codec parent finalizedOf
  best : store.TracksBest codec bestOf
  head : ∀ s op s' hash, store.commitOperation s op = .ok s' → .markHead hash ∈ op →
    (∀ call ∈ op, call.isMark = true) → bestOf s' = hash
  guards : ∀ s op s' (route : TreeRoute), store.commitOperation s op = .ok s' →
    finals codec op = [] →
    route.IsShortest parent (bestOf s) (bestAfter codec (bestOf s) op) →
    finalizedOf s ∉ route.retracted

/-- The finalized block is in the tree, and the best one below it. -/
structure FinalizedOnBest (parent : Hash → Option Hash) (root : Hash)
    (finalizedOf bestOf : σ → Hash) (backend : σ) : Prop where
  tree : Below parent root (finalizedOf backend)
  chain : Below parent (finalizedOf backend) (bestOf backend)

/-- The client sees the chain; imported blocks are linked to the tree, and those
that come finalized stand on the best chain. -/
def FinalityEvent.Linked (codec : Codec) (parent : Hash → Option Hash) (root : Hash)
    (finalizedOf bestOf : σ → Hash) (s : ClientState σ) : FinalityEvent → Prop
  | .subscribe | .leave _ => True
  | .finalizeBlock client .. =>
      client.SeesBest codec parent (bestOf s.backend) ∧
        client.Sees codec finalizedOf s.backend
  | .importBlock locked _ _ params .. =>
      locked.SeesBest codec parent (bestOf s.backend) ∧
        parent (codec.hashHeader params.post) = some params.post.parentHash ∧
        Below parent root params.post.parentHash ∧
        (params.finalized = true → locked.OnBestChain params.post.parentHash)

theorem lockImportAndRun_backend {ρ ε : Type} {fromError : Error → ε}
    {f : ClientImportOperation → Except (Panic ⊕ ε) (ρ × ClientImportOperation)}
    {reads : NotifyReads} {s : ClientState σ} {I : σ → Prop} (hs : I s.backend)
    (hcommits : ∀ r operation backend, Commits store f s r operation backend → I backend) :
    I (lockImportAndRun store fromError f reads s).2.backend := by
  rcases hrun : lockImportAndRun store fromError f reads s with ⟨result, t⟩
  rcases lockImportAndRun_cases hrun with ⟨-, -, rfl⟩ |
    ⟨r, operation, backend, _, _, _, hcommit, -, -, houtcome⟩
  · exact hs
  · have hbackend : t.backend = backend := by
      rcases houtcome with ⟨-, -, rfl⟩ | ⟨failure, -, -, rfl⟩ <;> rfl
    rw [hbackend]
    exact hcommits r operation backend hcommit

/-- The best block keeps above it what is final. -/
theorem Store.GuardsFinality.chain_bestAfter {s s' : σ} {op : List OpCall}
    (hacyclic : Acyclic parent) (hstore : store.GuardsFinality codec parent finalizedOf bestOf)
    (h : FinalizedOnBest parent root finalizedOf bestOf s)
    (hcommitted : store.commitOperation s op = .ok s') (hnone : finals codec op = [])
    (htree : Below parent root (bestAfter codec (bestOf s) op)) :
    Below parent (finalizedOf s) (bestAfter codec (bestOf s) op) := by
  obtain ⟨toBest, hbest, htip⟩ := h.tree.trans h.chain
  obtain ⟨toNext, hnext, htip'⟩ := htree
  obtain ⟨common, before, after, hbefore, hsource, hafter, htarget, hdisjoint⟩ :=
    hbest.exists_fork hacyclic hnext
  rw [htip] at hsource
  rw [htip'] at htarget
  have hroute : TreeRoute.IsShortest parent ⟨before.reverse, common, after⟩ (bestOf s)
      (bestAfter codec (bestOf s) op) := by
    refine ⟨⟨?_, ?_, hafter, htarget⟩, ?_⟩
    · rw [List.reverse_reverse]
      exact hbefore
    · rw [List.reverse_reverse]
      exact hsource
    · intro hash hretracted
      exact hdisjoint (List.mem_reverse.mp hretracted)
  have hnot : finalizedOf s ∉ before :=
    mt List.mem_reverse.mpr (hstore.guards s op s' _ hcommitted hnone hroute)
  have habove : Below parent (finalizedOf s) common := by
    refine Below.above_start ?_ hbefore hnot
    rw [hsource]
    exact h.chain
  rw [← htarget]
  exact habove.leads hafter

variable {s : ClientState σ} {backend : σ}

/-- A block becomes final: it is on the best chain, or made the head. -/
theorem finalizedOnBest_of_finality {client : LockedClient}
    {blockHash : BlockId → Except Error Hash} {id : BlockId}
    {justification : Option Justification} {notify : Bool} {operation : ClientImportOperation}
    (hstore : store.GuardsFinality codec parent finalizedOf bestOf)
    (hbest : client.SeesBest codec parent (bestOf s.backend))
    (hsees : client.Sees codec finalizedOf s.backend)
    (h : FinalizedOnBest parent root finalizedOf bestOf s.backend)
    (hcommits : Commits store (client.applyFinality blockHash · id justification notify) s ()
      operation backend) :
    FinalizedOnBest parent root finalizedOf bestOf backend := by
  obtain ⟨block, hblock, hleads, htip, hfinalized⟩ :=
    LockedClient.commits_path hstore.sequential hsees hcommits
  have htree : Below parent root (finalizedOf backend) := by
    rw [hfinalized, ← htip]
    exact h.tree.leads hleads
  refine ⟨htree, ?_⟩
  rw [hfinalized]
  have hran := hcommits.ran
  have hcommitted := hcommits.committed
  unfold LockedClient.applyFinality at hran
  simp only [bind_eq_ok, reading_eq_ok, pure_eq_ok, Prod.mk.injEq] at hran
  obtain ⟨block', hblock', operation', hfinality, -, rfl⟩ := hran
  obtain rfl : block = block' := Except.ok.inj (hblock.symm.trans hblock')
  have hkept : (∀ call ∈ operation'.op, call.KeepsBest codec) →
      bestOf backend = bestOf s.backend := by
    intro hkeeps
    rw [hstore.best _ _ _ hcommitted fun call hcall ↦ (hkeeps call hcall).2]
    exact bestAfter_of_keepsBest hkeeps
  rcases LockedClient.applyFinality_head hfinality with rfl | ⟨route, enacted, hroute, hop, -⟩
  · rw [hkept (by simp [ClientImportOperation.begin]), ← htip]
    exact h.chain
  · have hkeeps : ∀ call ∈ LockedClient.finalityCalls block justification enacted,
        call.KeepsBest codec := by
      intro call hcall
      rw [← hsees.codec]
      exact LockedClient.keepsBest_of_mem_finalityCalls hcall
    rw [ClientImportOperation.begin, List.nil_append] at hop
    by_cases hcommon : route.common = block
    · -- the block is on the best chain
      rw [if_neg (not_not.mpr hcommon), List.nil_append] at hop
      rw [hkept (hop ▸ hkeeps), ← hbest.bestHash]
      have hshort := hbest.routes _ _ _ hroute
      rw [← hcommon]
      exact ⟨_, hshort.retracted, hshort.source⟩
    · -- the block is made the head
      rw [if_pos hcommon] at hop
      have hmarks : ∀ call ∈ operation'.op, call.isMark = true := by
        obtain ⟨calls, _, hfinalizes, hall⟩ := LockedClient.applyFinality_finalizes hfinality
        rw [hall]
        exact hfinalizes.marks
      rw [hstore.head _ _ _ block hcommitted (by simp [hop]) hmarks]
      exact below_refl

/-- A block is imported: it is final and the best one, or the best block keeps
above it what is final. -/
theorem finalizedOnBest_of_import {client : LockedClient} {importBlock : BlockImportRequest}
    {newCache : List (Bytes × Bytes)} {operation : ClientImportOperation} {outcome : ImportOutcome}
    (hacyclic : Acyclic parent) (hstore : store.GuardsFinality codec parent finalizedOf bestOf)
    (hbest : client.SeesBest codec parent (bestOf s.backend))
    (hparent : parent (codec.hashHeader importBlock.post) = some importBlock.post.parentHash)
    (htree : Below parent root importBlock.post.parentHash)
    (hon : importBlock.finalized = true → client.OnBestChain importBlock.post.parentHash)
    (h : FinalizedOnBest parent root finalizedOf bestOf s.backend)
    (happly : client.applyBlock .begin importBlock newCache = .ok (operation, outcome))
    (hcommitted : store.commitOperation s.backend operation.op = .ok backend) :
    FinalizedOnBest parent root finalizedOf bestOf backend := by
  have hkept : operation = .begin → FinalizedOnBest parent root finalizedOf bestOf backend := by
    rintro rfl
    have hbestOf : bestOf backend = bestOf s.backend :=
      hstore.best _ _ _ hcommitted (by simp [ClientImportOperation.begin])
    have hfinalizedOf : finalizedOf backend = finalizedOf s.backend :=
      hstore.sequential.applies hcommitted
    refine ⟨?_, ?_⟩
    · rw [hfinalizedOf]
      exact h.tree
    · rw [hfinalizedOf, hbestOf]
      exact h.chain
  rcases LockedClient.applyBlock_cases happly with ⟨-, hbegin⟩ | ⟨_, _, -, himports⟩
  · exact hkept hbegin
  rcases LockedClient.applyBlock_stores hon happly with hbegin | ⟨forkChoice, _, _, -, hstores⟩
  · exact hkept hbegin
  have hbestOf := hstore.best _ _ _ hcommitted hstores.isMarkHead
  have hfinalizedOf := hstore.sequential.applies hcommitted
  have hafter := hstores.bestAfter (bestOf s.backend)
  obtain ⟨marked, _, hfinals, -, -, hmarked⟩ := himports.finals
  rw [hbest.codec] at hfinals hafter
  have hroot : Below parent root (codec.hashHeader importBlock.post) :=
    htree.trans (below_of_parent hparent)
  rcases hfinalized : importBlock.finalized
  · -- the last finalized block stays, and the best one does not leave the chain above it
    have hnone : finals codec operation.op = [] := by
      rcases hmarked with ⟨-, rfl⟩ | ⟨-, hfinal, -⟩
      · simpa [hfinalized] using hfinals
      · simp [hfinalized] at hfinal
    have hbestTree : Below parent root (bestAfter codec (bestOf s.backend) operation.op) := by
      rw [hafter]
      split
      · exact hroot
      · exact h.tree.trans h.chain
    rw [hnone, tip_nil] at hfinalizedOf
    refine ⟨hfinalizedOf ▸ h.tree, ?_⟩
    rw [hfinalizedOf, hbestOf]
    exact hstore.chain_bestAfter hacyclic h hcommitted hnone hbestTree
  · -- the block is the last finalized one and the best one
    have hhash : finalizedOf backend = codec.hashHeader importBlock.post := by
      rw [hfinalizedOf, hfinals, if_pos hfinalized, tip_append_singleton]
    have hsame : bestOf backend = codec.hashHeader importBlock.post := by
      rw [hbestOf, hafter, if_pos (by simp [LockedClient.isNewBest, hfinalized])]
    rw [← hhash] at hroot
    refine ⟨hroot, ?_⟩
    rw [hsame, hhash]
    exact below_refl

/-- In no step does the last finalized block leave the best chain. -/
theorem FinalityEvent.next_finalizedOnBest {t : ClientState σ} {event : FinalityEvent}
    (hacyclic : Acyclic parent) (hstore : store.GuardsFinality codec parent finalizedOf bestOf)
    (hlinked : event.Linked codec parent root finalizedOf bestOf s)
    (h : FinalizedOnBest parent root finalizedOf bestOf s.backend)
    (hnext : next store s event = some t) :
    FinalizedOnBest parent root finalizedOf bestOf t.backend := by
  cases event with
  | subscribe =>
      obtain rfl := Option.some.inj hnext
      exact h
  | leave gone =>
      obtain rfl := Option.some.inj hnext
      exact h
  | finalizeBlock client blockHash id justification notify reads =>
      obtain rfl := Option.some.inj hnext
      obtain ⟨hbest, hsees⟩ := hlinked
      refine lockImportAndRun_backend h ?_
      intro _ operation backend hcommits
      exact finalizedOnBest_of_finality hstore hbest hsees h hcommits
  | importBlock locked client importingBlock params newCache reads =>
      obtain rfl := Option.some.inj hnext
      obtain ⟨hbest, hparent, htree, hon⟩ := hlinked
      unfold LockedClient.importBlock
      split
      · exact h
      · exact h
      · rename_i prepared hprepare
        obtain ⟨hprepared, -⟩ := BlockImportRequest.prepare_cases hprepare
        have hpost : prepared.post = params.post := by rw [hprepared]; rfl
        have hfinalized : prepared.finalized = params.finalized := by rw [hprepared]
        rw [← hpost] at hparent htree hon
        rw [← hfinalized] at hon
        refine lockImportAndRun_backend h ?_
        intro outcome operation backend hcommits
        obtain ⟨⟨operation', outcome'⟩, happly, hswap⟩ := map_eq_ok.mp hcommits.ran
        obtain ⟨rfl, rfl⟩ := Prod.mk.inj hswap
        exact finalizedOnBest_of_import hacyclic hstore hbest hparent htree hon h happly
          hcommits.committed

/-- In every run of finalizations and imports the last finalized block stands on
the chain from the root to the best block. -/
theorem finalized_on_best_chain {start t : ClientState σ} (hacyclic : Acyclic parent)
    (hstore : store.GuardsFinality codec parent finalizedOf bestOf)
    (hstart : FinalizedOnBest parent root finalizedOf bestOf start.backend)
    (hrun : Transition.Reaches (FinalityEvent.next store)
      (fun s event ↦ event.Linked codec parent root finalizedOf bestOf s) start t) :
    OnPath parent root (bestOf t.backend) (finalizedOf t.backend) := by
  have hon : FinalizedOnBest parent root finalizedOf bestOf t.backend :=
    hrun.invariant hstart fun _ _ _ hs hlinked hnext ↦
      FinalityEvent.next_finalizedOnBest hacyclic hstore hlinked hs hnext
  exact (onPath_iff hon.tree).mpr hon.chain

end BestChain

namespace Sample

/-- Two blocks on the same genesis block. -/
def fork (hash : Hash) : Option Hash :=
  if hash = [1, 5] ∨ hash = [1, 6] then some [0, 0] else none

theorem acyclic_fork : Acyclic fork := by
  refine acyclic_of_number (fun hash ↦ (hash.headD 0).toNat) fun a b h ↦ ?_
  obtain ⟨hb, ha⟩ := Option.ite_none_right_eq_some.mp h
  obtain rfl := Option.some.inj ha
  rcases hb with rfl | rfl <;> decide

theorem below_fork {hash : Hash} (h : Below fork [0, 0] hash) :
    hash = [0, 0] ∨ hash = [1, 5] ∨ hash = [1, 6] := by
  obtain ⟨path, hpath, rfl⟩ := h
  rcases List.eq_nil_or_concat path with rfl | ⟨init, last, rfl⟩
  · exact Or.inl rfl
  · rw [List.concat_eq_append] at hpath ⊢
    rw [tip_append_singleton]
    exact Or.inr (Option.ite_none_right_eq_some.mp (leads_append_singleton.mp hpath).2).1

def forkRoute (source target : Hash) : TreeRoute :=
  if source = target then ⟨[], source, []⟩
  else ⟨[source].filter (· ≠ [0, 0]), [0, 0], [target].filter (· ≠ [0, 0])⟩

def forkClient : LockedClient :=
  { locked with
    info := ⟨[1, 6], 1, [0, 0], 0⟩
    treeRoute := fun source target ↦ .ok (forkRoute source target) }

theorem forkRoute_isShortest {source target : Hash} (hsource : Below fork [0, 0] source)
    (htarget : Below fork [0, 0] target) :
    (forkRoute source target).IsShortest fork source target := by
  rcases below_fork hsource with rfl | rfl | rfl <;>
    rcases below_fork htarget with rfl | rfl | rfl <;>
    exact ⟨⟨by decide, by decide, by decide, by decide⟩, by simp [forkRoute]⟩

/-- The block that the operation makes the head. -/
def head? : OpCall → Option Hash
  | .markHead hash => some hash
  | _ => none

/-- A store of the last finalized block and the best one, which leaves the best
block only before anything is final. -/
def guardStore : Store (Hash × Hash) where
  beginOperation _ := .ok ()
  commitOperation s op :=
    if Leads fork s.1 (finals codec op) then
      match op.filterMap head? with
      | [] =>
          if finals codec op = [] ∧ fork s.1 ≠ none ∧ bestAfter codec s.2 op ≠ s.2 then
            .error .notInFinalizedChain
          else .ok (tip s.1 (finals codec op), bestAfter codec s.2 op)
      | [hash] =>
          if finals codec op = [] then .error (.backend "a head alone")
          else .ok (tip s.1 (finals codec op), hash)
      | _ => .error (.backend "several heads")
    else .error (.backend "non-sequential finalization")

theorem guardStore_cases {s s' : Hash × Hash} {op : List OpCall}
    (h : guardStore.commitOperation s op = .ok s') :
    Leads fork s.1 (finals codec op) ∧ s'.1 = tip s.1 (finals codec op) ∧
      (op.filterMap head? = [] ∧ s'.2 = bestAfter codec s.2 op ∧
          (finals codec op = [] → fork s.1 = none ∨ bestAfter codec s.2 op = s.2) ∨
        op.filterMap head? = [s'.2] ∧ finals codec op ≠ []) := by
  unfold guardStore at h
  simp only at h
  split at h
  · rename_i hleads
    rcases hheads : op.filterMap head? with _ | ⟨hash, _ | ⟨_, _⟩⟩
    · simp only [hheads] at h
      split at h
      · simp at h
      · rename_i hguard
        obtain rfl := Except.ok.inj h
        refine ⟨hleads, rfl, Or.inl ⟨rfl, rfl, ?_⟩⟩
        intro hnone
        by_cases hgenesis : fork s.1 = none
        · exact Or.inl hgenesis
        · exact Or.inr (by_contra fun hother ↦ hguard ⟨hnone, hgenesis, hother⟩)
    · simp only [hheads] at h
      split at h
      · simp at h
      · rename_i hsome
        obtain rfl := Except.ok.inj h
        exact ⟨hleads, rfl, Or.inr ⟨rfl, hsome⟩⟩
    · simp [hheads] at h
  · simp at h

theorem guardStore_guardsFinality : guardStore.GuardsFinality codec fork Prod.fst Prod.snd where
  sequential := ⟨fun h ↦ (guardStore_cases h).1, fun h ↦ (guardStore_cases h).2.1⟩
  best s op s' h hnot := by
    obtain ⟨-, -, ⟨-, hbest, -⟩ | ⟨hheads, -⟩⟩ := guardStore_cases h
    · exact hbest
    · have hnone : op.filterMap head? = [] := by
        refine List.filterMap_eq_nil_iff.mpr fun call hcall ↦ ?_
        have hmark := hnot call hcall
        cases call <;> first | rfl | cases hmark
      simp [hnone] at hheads
  head s op s' hash h hmem _ := by
    have hhash : hash ∈ op.filterMap head? := List.mem_filterMap.mpr ⟨_, hmem, rfl⟩
    obtain ⟨-, -, ⟨hheads, -⟩ | ⟨hheads, -⟩⟩ := guardStore_cases h
    · simp [hheads] at hhash
    · rw [hheads, List.mem_singleton] at hhash
      exact hhash.symm
  guards s op s' route h hnone hroute := by
    obtain ⟨-, -, ⟨-, -, hguard⟩ | ⟨-, hsome⟩⟩ := guardStore_cases h
    · intro hretracted
      rcases hguard hnone with hgenesis | hsame
      · obtain ⟨above, habove⟩ := hroute.retracted.exists_parent (List.mem_reverse.mpr hretracted)
        rw [hgenesis] at habove
        cases habove
      · rw [hsame] at hroute
        rw [(hroute.retracted_eq_nil_iff acyclic_fork).mpr below_refl] at hretracted
        cases hretracted
    · exact absurd hnone hsome

def InFork (hash : Hash) : Prop := hash = [0, 0] ∨ hash = [1, 5] ∨ hash = [1, 6]

instance (hash : Hash) : Decidable (InFork hash) := inferInstanceAs (Decidable (_ ∨ _ ∨ _))

/-- The client knows no other blocks than those of the fork. -/
def guardedClient : LockedClient :=
  { forkClient with
    treeRoute := fun source target ↦
      if InFork source ∧ InFork target then .ok (forkRoute source target)
      else .error (.backend "no route") }

theorem below_of_inFork {hash : Hash} (h : InFork hash) : Below fork [0, 0] hash := by
  rcases h with rfl | h
  · exact below_refl
  · exact below_of_parent (if_pos h)

theorem guardedClient_seesBest : guardedClient.SeesBest codec fork [1, 6] := by
  refine ⟨rfl, rfl, ?_⟩
  intro source target route h
  unfold guardedClient at h
  simp only at h
  split at h
  · rename_i hblocks
    obtain rfl := Except.ok.inj h
    exact (forkRoute_isShortest (below_of_inFork hblocks.1) (below_of_inFork hblocks.2)).toIsRoute
  · simp at h

/-- The best block is beside a block that becomes final. -/
def besideBest : ClientState (Hash × Hash) := ⟨([0, 0], [1, 6]), ⟨[], [], []⟩⟩

theorem besideBest_finalizedOnBest :
    FinalizedOnBest fork [0, 0] Prod.fst Prod.snd besideBest.backend :=
  ⟨below_refl, below_of_parent rfl⟩

end Sample

/-- The best block gives way to the finalized one. -/
theorem finalized_on_best_chain_head :
    (Sample.guardedClient.finalizeBlock Sample.guardStore Sample.blockHash (.hash [1, 5]) none true
        Sample.headerReads Sample.besideBest).2.backend = ([1, 5], [1, 5]) ∧
      OnPath Sample.fork [0, 0] [1, 5] [1, 5] := by
  have hbackend : (Sample.guardedClient.finalizeBlock Sample.guardStore Sample.blockHash
      (.hash [1, 5]) none true Sample.headerReads Sample.besideBest).2.backend =
        ([1, 5], [1, 5]) := rfl
  refine ⟨hbackend, ?_⟩
  have hon := finalized_on_best_chain Sample.acyclic_fork Sample.guardStore_guardsFinality
    Sample.besideBest_finalizedOnBest
    (.single ⟨.finalizeBlock Sample.guardedClient Sample.blockHash (.hash [1, 5]) none true
      Sample.headerReads,
      ⟨Sample.guardedClient_seesBest, rfl, fun _ h ↦ (Except.ok.inj h).symm⟩, rfl⟩)
  rwa [hbackend] at hon

end SubArchive
