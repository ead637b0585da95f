import SubArchive.SequentialFinality

/-!
# The path that becomes final

`Client::apply_finality_with_block_hash` writes into the operation it is given,
so what it has recorded stays there when it fails.  On a tree of blocks, with
routes through the lowest common ancestor, it marks the path from the last
finalized block down to its target.
-/

namespace SubArchive

open Ancestry Results

/-- A computation on the operation at hand, which an error leaves as it is. -/
abbrev OperationM := EStateM (Panic ⊕ Error) ClientImportOperation

namespace OperationM

def reading {α : Type} (result : Except Error α) : OperationM α :=
  match result with
  | .ok a => pure a
  | .error error => throw (.inr error)

def ensure (c : Prop) [Decidable c] (failure : Panic ⊕ Error) : OperationM Unit :=
  if c then pure () else throw failure

end OperationM

namespace LockedClient

/-- A further call on `operation.op`. -/
def calls (client : LockedClient) (call : OpCall) : OperationM Unit := do
  let operation ← get
  OperationM.reading (client.accepts operation.op call)
  set (operation.calling [call])

def callsWhen (client : LockedClient) (c : Prop) [Decidable c] (call : OpCall) : OperationM Unit :=
  if c then client.calls call else pure ()

/-- `apply_finality_with_block_hash` on the operation itself. -/
def applyFinalityInPlace (client : LockedClient) (block : Hash)
    (justification : Option Justification) (bestBlock : Hash) (notify : Bool) :
    OperationM Unit := do
  let lastFinalized ← OperationM.reading client.lastFinalized
  if block = lastFinalized then return
  let routeFromFinalized ← OperationM.reading (client.treeRoute lastFinalized block)
  OperationM.ensure (routeFromFinalized.retracted = []) (.inr .notInFinalizedChain)
  let routeFromBest ← OperationM.reading (client.treeRoute bestBlock block)
  client.callsWhen (routeFromBest.common ≠ block) (.markHead block)
  let enacted := routeFromFinalized.enacted
  OperationM.ensure (enacted ≠ []) (.inl "assertion failed: !enacted.is_empty()")
  enacted.dropLast.forM fun hash ↦ client.calls (.markFinalized hash none)
  OperationM.ensure (enacted.getLast? = some block) (.inl "assertion failed: `(left == right)`")
  client.calls (.markFinalized block justification)
  modify fun operation ↦ { operation with
    notifyFinalized := operation.notifyFinalized ++ toNotify notify enacted }

end LockedClient

/-! ## The result without the operation -/

namespace OperationM

/-- What is left when an error takes the operation along. -/
def result : EStateM.Result (Panic ⊕ Error) ClientImportOperation Unit →
    Except (Panic ⊕ Error) ClientImportOperation
  | .ok _ operation => .ok operation
  | .error failure _ => .error failure

variable {operation : ClientImportOperation} {client : LockedClient}

theorem result_eq_ok {r : EStateM.Result (Panic ⊕ Error) ClientImportOperation Unit} :
    result r = .ok operation ↔ r = .ok () operation := by
  cases r <;> simp [result]

theorem result_bind {m : OperationM Unit} {r : Except (Panic ⊕ Error) ClientImportOperation}
    (h : result (m operation) = r) (rest : Unit → OperationM Unit) :
    result ((m >>= rest) operation) = r >>= fun operation ↦ result (rest () operation) := by
  subst h
  change result (EStateM.bind m rest operation) = _
  unfold EStateM.bind
  rcases m operation with _ | _ <;> rfl

theorem result_reading {α : Type} (r : Except Error α) (rest : α → OperationM Unit) :
    result ((reading r >>= rest) operation) =
      SubArchive.reading r >>= fun a ↦ result (rest a operation) := by
  cases r <;> rfl

theorem result_ensure (c : Prop) [Decidable c] (failure : Panic ⊕ Error)
    (rest : Unit → OperationM Unit) :
    result ((ensure c failure >>= rest) operation) =
      SubArchive.ensure c failure >>= fun _ ↦ result (rest () operation) := by
  unfold ensure SubArchive.ensure
  split <;> rfl

theorem result_calls (call : OpCall) :
    result (client.calls call operation) = client.record operation call := by
  unfold LockedClient.calls LockedClient.record
  change result ((reading (client.accepts operation.op call) >>= fun _ ↦
    set (operation.calling [call])) operation) = _
  rw [result_reading]
  rfl

theorem result_callsWhen (c : Prop) [Decidable c] (call : OpCall) :
    result (client.callsWhen c call operation) = client.recordWhen c operation call := by
  unfold LockedClient.callsWhen LockedClient.recordWhen
  split
  · exact result_calls call
  · rfl

theorem result_forM (hashes : List Hash) :
    result ((hashes.forM fun hash ↦ client.calls (.markFinalized hash none)) operation) =
      hashes.foldlM (fun operation hash ↦ client.record operation (.markFinalized hash none))
        operation := by
  induction hashes generalizing operation with
  | nil => rfl
  | cons hash hashes ih =>
      have hcall : result (client.calls (.markFinalized hash none) operation) =
          client.record operation (.markFinalized hash none) := result_calls _
      have hfirst := result_bind hcall fun _ ↦
        hashes.forM fun hash ↦ client.calls (.markFinalized hash none)
      rw [List.foldlM_cons]
      exact hfirst.trans (bind_congr fun operation ↦ ih)

end OperationM

namespace LockedClient

open OperationM

/-- The operation that goes along with the result is the same. -/
theorem result_applyFinalityInPlace (client : LockedClient) (operation : ClientImportOperation)
    (block : Hash) (justification : Option Justification) (bestBlock : Hash) (notify : Bool) :
    result (client.applyFinalityInPlace block justification bestBlock notify operation) =
      client.applyFinalityWithBlockHash operation block justification bestBlock notify := by
  unfold applyFinalityInPlace applyFinalityWithBlockHash
  rw [result_reading]
  refine bind_congr fun lastFinalized ↦ ?_
  by_cases hsame : block = lastFinalized
  · rw [if_pos hsame, if_pos hsame]
    rfl
  rw [if_neg hsame, if_neg hsame, result_reading]
  refine bind_congr fun routeFromFinalized ↦ ?_
  rw [result_ensure]
  refine bind_congr fun _ ↦ ?_
  rw [result_reading]
  refine bind_congr fun routeFromBest ↦ ?_
  rw [result_bind (result_callsWhen _ _)]
  refine bind_congr fun operation ↦ ?_
  rw [result_ensure]
  refine bind_congr fun _ ↦ ?_
  rw [result_bind (result_forM _)]
  refine bind_congr fun operation ↦ ?_
  rw [result_ensure]
  refine bind_congr fun _ ↦ ?_
  rw [result_bind (result_calls _)]
  rfl

end LockedClient

/-! ## On a tree of blocks -/

/-- The route through the lowest common ancestor: no block is both retracted
and enacted. -/
structure TreeRoute.IsShortest (parent : Hash → Option Hash) (route : TreeRoute)
    (source target : Hash) : Prop extends TreeRoute.IsRoute parent route source target where
  disjoint : route.retracted.Disjoint route.enacted

namespace TreeRoute.IsShortest

variable {parent : Hash → Option Hash} {route : TreeRoute} {source target : Hash}

/-- Nothing is retracted on the way to a descendant. -/
theorem retracted_eq_nil_iff (hacyclic : Acyclic parent)
    (h : route.IsShortest parent source target) :
    route.retracted = [] ↔ Below parent source target := by
  constructor
  · intro hretracted
    exact ⟨route.enacted, h.leads hretracted⟩
  · rintro ⟨path, hpath, htip⟩
    have hdisjoint : route.retracted.reverse.Disjoint route.enacted := by
      intro b hb hb'
      exact h.disjoint (List.mem_reverse.mp hb) hb'
    rw [← h.source] at hpath htip
    obtain ⟨hnil, -⟩ := h.retracted.eq_nil_of_disjoint hacyclic h.enacted hdisjoint hpath
      (htip.trans h.target.symm)
    exact List.reverse_eq_nil_iff.mp hnil

/-- Nothing is enacted on the way to an ancestor. -/
theorem common_eq_target_iff (hacyclic : Acyclic parent)
    (h : route.IsShortest parent source target) :
    route.common = target ↔ Below parent target source := by
  constructor
  · rintro rfl
    exact ⟨_, h.retracted, h.source⟩
  · rintro ⟨path, hpath, htip⟩
    have hdisjoint : route.enacted.Disjoint route.retracted.reverse := by
      intro b hb hb'
      exact h.disjoint (List.mem_reverse.mp hb') hb
    rw [← h.target] at hpath htip
    obtain ⟨hnil, -⟩ := h.enacted.eq_nil_of_disjoint hacyclic h.retracted hdisjoint hpath
      (htip.trans h.source.symm)
    rw [← h.target, hnil, tip_nil]

end TreeRoute.IsShortest

namespace LockedClient

/-- The blocks below `genesis` form a tree that the client's routes are about,
and the operation accepts every mark. -/
structure OnTree (client : LockedClient) (parent : Hash → Option Hash)
    (genesis lastFinalized bestBlock : Hash) : Prop where
  acyclic : Acyclic parent
  answersLastFinalized : client.lastFinalized = .ok lastFinalized
  belowFinalized : Below parent genesis lastFinalized
  belowBest : Below parent genesis bestBlock
  answersTreeRoute : ∀ source target, Below parent genesis source →
    Below parent genesis target → ∃ route, client.treeRoute source target = .ok route ∧
      route.IsShortest parent source target
  accepts : ∀ op call, call.isMark = true → client.accepts op call = .ok ()

variable {client : LockedClient} {parent : Hash → Option Hash}
  {genesis lastFinalized bestBlock block : Hash} {justification : Option Justification}
  {notify : Bool} {operation : ClientImportOperation}

theorem record_mark (haccepts : ∀ op call, call.isMark = true → client.accepts op call = .ok ())
    {call : OpCall} (hcall : call.isMark = true) (operation : ClientImportOperation) :
    client.record operation call = .ok (operation.calling [call]) :=
  record_eq_ok.mpr ⟨haccepts _ _ hcall, rfl⟩

theorem foldlM_mark (haccepts : ∀ op call, call.isMark = true → client.accepts op call = .ok ())
    (hashes : List Hash) (operation : ClientImportOperation) :
    hashes.foldlM (fun operation hash ↦ client.record operation (.markFinalized hash none))
      operation = .ok (operation.calling (hashes.map (.markFinalized · none))) := by
  induction hashes generalizing operation with
  | nil => simp
  | cons hash hashes ih =>
      rw [List.foldlM_cons, record_mark haccepts rfl]
      exact (ih _).trans (by simp)

theorem applyFinalityInPlace_same (h : client.OnTree parent genesis lastFinalized bestBlock)
    (hsame : block = lastFinalized) :
    client.applyFinalityInPlace block justification bestBlock notify operation =
      .ok () operation := by
  unfold applyFinalityInPlace
  rw [h.answersLastFinalized]
  change (if block = lastFinalized then _ else _ : OperationM Unit) operation = _
  rw [if_pos hsame]
  rfl

theorem applyFinalityInPlace_descendant (h : client.OnTree parent genesis lastFinalized bestBlock)
    (hblock : Descends parent lastFinalized block) (hbelow : Below parent genesis block) :
    ∃ path head, Leads parent lastFinalized path ∧ tip lastFinalized path = block ∧ path.Nodup ∧
      (head = [] ∧ OnPath parent genesis bestBlock block ∨
        head = [.markHead block] ∧ ¬ OnPath parent genesis bestBlock block) ∧
      client.applyFinalityInPlace block justification bestBlock notify operation =
        .ok () {
          op := operation.op ++ head ++ finalityCalls block justification path
          notifyImported := operation.notifyImported
          notifyFinalized := operation.notifyFinalized ++ toNotify notify path } := by
  have hne : block ≠ lastFinalized := by
    rintro rfl
    exact h.acyclic _ hblock
  obtain ⟨route, hroute, hshortest⟩ :=
    h.answersTreeRoute lastFinalized block h.belowFinalized hbelow
  obtain ⟨fromBest, hfromBest, hshortest'⟩ :=
    h.answersTreeRoute bestBlock block h.belowBest hbelow
  have hretracted : route.retracted = [] :=
    (hshortest.retracted_eq_nil_iff h.acyclic).mpr hblock.below
  obtain ⟨hleads, htip⟩ := hshortest.leads hretracted
  have henacted : route.enacted ≠ [] := by
    intro hnil
    rw [hnil, tip_nil] at htip
    exact hne htip.symm
  have hlast : route.enacted.getLast? = some block := by
    rw [← htip, tip, List.getLastD_eq_getLast?, List.getLast?_eq_some_getLast henacted]
    rfl
  have hhead : fromBest.common = block ↔ OnPath parent genesis bestBlock block :=
    (hshortest'.common_eq_target_iff h.acyclic).trans (onPath_iff hbelow).symm
  refine ⟨route.enacted, if fromBest.common ≠ block then [.markHead block] else [], hleads, htip,
    hleads.nodup h.acyclic, ?_, ?_⟩
  · by_cases hcommon : fromBest.common = block
    · exact Or.inl ⟨if_neg (not_not_intro hcommon), hhead.mp hcommon⟩
    · exact Or.inr ⟨if_pos hcommon, mt hhead.mpr hcommon⟩
  · have hrecorded : client.recordWhen (fromBest.common ≠ block) operation (.markHead block) =
        .ok (operation.calling (if fromBest.common ≠ block then [.markHead block] else [])) := by
      unfold recordWhen
      split
      · exact record_mark h.accepts rfl operation
      · rw [ClientImportOperation.calling_nil]
    rw [← OperationM.result_eq_ok, result_applyFinalityInPlace]
    unfold applyFinalityWithBlockHash
    simp only [bind_eq_ok, reading_eq_ok]
    refine ⟨lastFinalized, h.answersLastFinalized, ?_⟩
    rw [if_neg hne]
    simp only [bind_eq_ok, reading_eq_ok, ensure_eq_ok, pure_eq_ok]
    refine ⟨route, hroute, (), hretracted, fromBest, hfromBest, _, hrecorded, (), henacted, _,
      foldlM_mark h.accepts _ _, (), hlast, _, record_mark h.accepts rfl _, ?_⟩
    simp [finalityCalls]

theorem applyFinalityInPlace_elsewhere (h : client.OnTree parent genesis lastFinalized bestBlock)
    (hne : block ≠ lastFinalized) (hblock : ¬ Descends parent lastFinalized block)
    (hbelow : Below parent genesis block) :
    client.applyFinalityInPlace block justification bestBlock notify operation =
      .error (.inr .notInFinalizedChain) operation := by
  obtain ⟨route, hroute, hshortest⟩ :=
    h.answersTreeRoute lastFinalized block h.belowFinalized hbelow
  have hretracted : route.retracted ≠ [] := by
    intro hnil
    have hbelow' := (hshortest.retracted_eq_nil_iff h.acyclic).mp hnil
    exact hbelow'.eq_or_descends.elim hne hblock
  unfold applyFinalityInPlace
  rw [h.answersLastFinalized]
  change (if block = lastFinalized then _ else _ : OperationM Unit) operation = _
  rw [if_neg hne, hroute]
  change EStateM.bind (OperationM.ensure _ _) _ operation = _
  rw [OperationM.ensure, if_neg hretracted]
  rfl

/-- Nothing is done for the last finalized block itself, a block elsewhere than
below it is refused, and for a block below it the path down to the block is
marked.  The operation has a new head unless the block is an ancestor of the
best one. -/
theorem applyFinality_marks_path (h : client.OnTree parent genesis lastFinalized bestBlock)
    (hbelow : Below parent genesis block) (justification : Option Justification) (notify : Bool)
    (operation : ClientImportOperation) :
    (block = lastFinalized →
      client.applyFinalityInPlace block justification bestBlock notify operation =
        .ok () operation) ∧
    (block ≠ lastFinalized → ¬ Descends parent lastFinalized block →
      client.applyFinalityInPlace block justification bestBlock notify operation =
        .error (.inr .notInFinalizedChain) operation) ∧
    (Descends parent lastFinalized block →
      ∃ path head, Leads parent lastFinalized path ∧ tip lastFinalized path = block ∧
        path.Nodup ∧
        (head = [] ∧ OnPath parent genesis bestBlock block ∨
          head = [.markHead block] ∧ ¬ OnPath parent genesis bestBlock block) ∧
        client.applyFinalityInPlace block justification bestBlock notify operation =
          .ok () {
            op := operation.op ++ head ++
              (path.dropLast.map (.markFinalized · none) ++ [.markFinalized block justification])
            notifyImported := operation.notifyImported
            notifyFinalized := operation.notifyFinalized ++
              if notify then path.drop (path.length - min path.length 256) else [] }) ∧
    ∀ panic after, client.applyFinalityInPlace block justification bestBlock notify operation ≠
      .error (.inl panic) after := by
  refine ⟨applyFinalityInPlace_same h,
    fun hne hblock ↦ applyFinalityInPlace_elsewhere h hne hblock hbelow,
    fun hblock ↦ applyFinalityInPlace_descendant h hblock hbelow, ?_⟩
  intro panic after hpanic
  by_cases hsame : block = lastFinalized
  · rw [applyFinalityInPlace_same h hsame] at hpanic
    cases hpanic
  by_cases hblock : Descends parent lastFinalized block
  · obtain ⟨_, _, -, -, -, -, hok⟩ := applyFinalityInPlace_descendant h hblock hbelow
    rw [hok] at hpanic
    cases hpanic
  · rw [applyFinalityInPlace_elsewhere h hsame hblock hbelow] at hpanic
    cases hpanic

end LockedClient

namespace Sample

/-- Every string of bytes is a block, and what follows its first byte is the
parent. -/
def tower : Hash → Option Hash
  | [] => none
  | _ :: hash => some hash

theorem acyclic_tower : Acyclic tower := by
  refine acyclic_of_number List.length fun a b h ↦ ?_
  rcases b with _ | ⟨byte, b⟩
  · cases h
  · obtain rfl := Option.some.inj h
    exact Nat.lt_succ_self _

/-- The blocks above `base` that add one byte after the other. -/
def storeys (base : Hash) : Bytes → List Hash
  | [] => []
  | byte :: bytes => (byte :: base) :: storeys (byte :: base) bytes

theorem leads_storeys (base : Hash) (bytes : Bytes) : Leads tower base (storeys base bytes) := by
  induction bytes generalizing base with
  | nil => exact leads_nil
  | cons byte bytes ih => exact leads_cons.mpr ⟨rfl, ih _⟩

theorem tip_storeys (base : Hash) (bytes : Bytes) :
    tip base (storeys base bytes) = bytes.reverse ++ base := by
  induction bytes generalizing base with
  | nil => rfl
  | cons byte bytes ih => simp [storeys, ih]

theorem length_storeys (base : Hash) (bytes : Bytes) :
    (storeys base bytes).length = bytes.length := by
  induction bytes generalizing base with
  | nil => rfl
  | cons byte bytes ih => simp [storeys, ih]

theorem suffix_of_mem_storeys {base hash : Hash} {byte : UInt8} {bytes : Bytes}
    (h : hash ∈ storeys base (byte :: bytes)) : (byte :: base) <:+ hash := by
  induction bytes generalizing base byte with
  | nil =>
      obtain rfl := List.mem_singleton.mp h
      exact List.suffix_rfl
  | cons next bytes ih =>
      rcases List.mem_cons.mp h with rfl | h
      · exact List.suffix_rfl
      · exact (List.suffix_cons next _).trans (ih h)

theorem below_tower (hash : Hash) : Below tower [] hash :=
  ⟨storeys [] hash.reverse, leads_storeys _ _, by simp [tip_storeys]⟩

/-- The route between the blocks that add `up` and `down` to `base`. -/
def towerRoute (base : Hash) : Bytes → Bytes → TreeRoute
  | up :: ups, down :: downs =>
      if up = down then towerRoute (up :: base) ups downs
      else ⟨(storeys base (up :: ups)).reverse, base, storeys base (down :: downs)⟩
  | ups, downs => ⟨(storeys base ups).reverse, base, storeys base downs⟩

theorem towerRoute_isShortest (base : Hash) (ups downs : Bytes) :
    (towerRoute base ups downs).IsShortest tower (ups.reverse ++ base) (downs.reverse ++ base) := by
  have hroute (base : Hash) (ups downs : Bytes)
      (hdisjoint : (storeys base ups).Disjoint (storeys base downs)) :
      (TreeRoute.mk (storeys base ups).reverse base (storeys base downs)).IsShortest tower
        (ups.reverse ++ base) (downs.reverse ++ base) :=
    ⟨⟨by simpa using leads_storeys base ups, by simpa using tip_storeys base ups,
      leads_storeys base downs, tip_storeys base downs⟩,
      fun _ hup hdown ↦ hdisjoint (List.mem_reverse.mp hup) hdown⟩
  induction base, ups, downs using towerRoute.induct with
  | case1 base up ups downs ih =>
      simpa [towerRoute] using ih
  | case2 base up ups down downs hne =>
      rw [towerRoute, if_neg hne]
      refine hroute _ _ _ fun hash hup hdown ↦ hne ?_
      have hsuffix : (up :: base) <:+ (down :: base) :=
        List.suffix_of_suffix_length_le (suffix_of_mem_storeys hup) (suffix_of_mem_storeys hdown)
          le_rfl
      exact (List.cons.inj (hsuffix.eq_of_length rfl)).1
  | case3 base ups downs hnot =>
      have hnil : ups = [] ∨ downs = [] := by
        rcases ups with _ | ⟨up, ups⟩
        · exact Or.inl rfl
        · rcases downs with _ | ⟨down, downs⟩
          · exact Or.inr rfl
          · exact (hnot up ups down downs rfl rfl).elim
      rw [towerRoute]
      · exact hroute _ _ _ (by rcases hnil with rfl | rfl <;> simp [storeys])
      · exact hnot

/-- The block on top of `n` storeys. -/
def top (n : ℕ) : Hash := List.replicate n 0

@[simp] theorem length_top (n : ℕ) : (top n).length = n := List.length_replicate

theorem tip_storeys_top (n : ℕ) : tip [] (storeys [] (top n)) = top n := by
  rw [tip_storeys, top, List.reverse_replicate, List.append_nil]

theorem storeys_append (base : Hash) (bytes : Bytes) (byte : UInt8) :
    storeys base (bytes ++ [byte]) = storeys base bytes ++ [byte :: (bytes.reverse ++ base)] := by
  induction bytes generalizing base with
  | nil => rfl
  | cons first bytes ih => simp [storeys, ih]

theorem dropLast_storeys_top (n : ℕ) :
    (storeys [] (top (n + 1))).dropLast = storeys [] (top n) := by
  rw [top, List.replicate_succ', storeys_append, List.dropLast_concat, top]

theorem top_notMem_best (n : ℕ) : ¬ OnPath tower [] [1] (top (n + 1)) := by
  rintro ⟨path, hpath, htip, hmem⟩
  have hone : Leads tower [] [[1]] := leads_cons.mpr ⟨rfl, leads_nil⟩
  obtain rfl : path = [[1]] := hpath.unique acyclic_tower hone htip
  simp [top, List.replicate_succ] at hmem

/-- The best block stands beside a tower of blocks. -/
def towerClient : LockedClient :=
  { locked with
    info := ⟨[1], 1, [], 0⟩
    lastFinalized := .ok []
    treeRoute := fun source target ↦ .ok (towerRoute [] source.reverse target.reverse) }

theorem onTree_towerClient : towerClient.OnTree tower [] [] [1] where
  acyclic := acyclic_tower
  answersLastFinalized := rfl
  belowFinalized := below_refl
  belowBest := below_tower _
  answersTreeRoute source target _ _ :=
    ⟨_, rfl, by simpa using towerRoute_isShortest [] source.reverse target.reverse⟩
  accepts _ _ _ := rfl

end Sample

namespace LockedClient

/-- Three hundred blocks beside the best one become final: the last is the new
head, and the first forty-four go unnoticed. -/
theorem applyFinality_marks_path_tower :
    Sample.towerClient.applyFinalityInPlace (Sample.top 300) (some ⟨[7], [8]⟩) [1] true .begin =
      .ok () {
        op := .markHead (Sample.top 300) ::
          ((Sample.storeys [] (Sample.top 299)).map (.markFinalized · none) ++
            [.markFinalized (Sample.top 300) (some ⟨[7], [8]⟩)])
        notifyImported := none
        notifyFinalized := (Sample.storeys [] (Sample.top 300)).drop 44 } := by
  have hdescends : Descends Sample.tower [] (Sample.top 300) :=
    (Sample.below_tower _).eq_or_descends.resolve_left (List.cons_ne_nil _ _)
  obtain ⟨-, -, hmarks, -⟩ := applyFinality_marks_path Sample.onTree_towerClient
    (Sample.below_tower _) (some ⟨[7], [8]⟩) true .begin
  obtain ⟨path, head, hleads, htip, -, hhead, hrun⟩ := hmarks hdescends
  obtain rfl : path = Sample.storeys [] (Sample.top 300) :=
    hleads.unique Sample.acyclic_tower (Sample.leads_storeys _ _)
      (htip.trans (Sample.tip_storeys_top 300).symm)
  obtain rfl : head = [.markHead (Sample.top 300)] := by
    rcases hhead with ⟨-, hon⟩ | ⟨hhead, -⟩
    · exact absurd hon (Sample.top_notMem_best 299)
    · exact hhead
  rw [hrun, Sample.dropLast_storeys_top 299, Sample.length_storeys, Sample.length_top]
  rfl

end LockedClient

end SubArchive
