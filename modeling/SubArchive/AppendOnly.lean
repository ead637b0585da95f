import SubArchive.NoHole

/-!
# What the tables keep

With `reset_force` off a session starts at the largest stored height and its
numbers only go up, so nothing on its way is below a stored height.  A row of
`blocks` can therefore be written again only while it is the highest, and a row
of `metadatas` never, whatever fails or crashes and whatever the chain does.
-/

namespace SubArchive

theorem Database.le_maxBlockNum {db : Database} {n : BlockNumber} (hn : db.Stores n) :
    n ≤ db.maxBlockNum.getD 0 := by
  rcases hmax : db.maxBlockNum with _ | k
  · have hnil : db.blocks.keys = [] := List.max?_eq_none_iff.mp hmax
    simp [Database.Stores, hnil] at hn
  · exact (Database.maxBlockNum_eq_some hmax).2 n hn

namespace Notifier

variable {a b : Notifier} {reply : Reply}
  {metadataAt : BlockNumber → Except Panic (Except Error Bytes)}

/-- Metadata is fetched and inserted for a version that is not stored. -/
def InsertsNew (a : Notifier) : Prop :=
  match a.task with
  | .getMetadata msg | .insertMetadata msg _ => msg.model.specVersion ∉ a.db.metadatas.keys
  | _ => True

theorem insertsNew_restart : a.restart.InsertsNew := trivial

theorem insertsNew_step (h : a.InsertsNew) (hstep : Step metadataAt a reply b) :
    b.InsertsNew := by
  cases hstep with
  | metadataMissing htask hmissing => exact hmissing
  | metadataRead htask hread =>
      simp only [InsertsNew, htask] at h
      exact h
  | _ => trivial

theorem kept_metadata (h : a.InsertsNew) (hstep : Step metadataAt a reply b) :
    ∀ row ∈ a.db.metadatas.rows, row ∈ b.db.metadatas.rows := by
  intro row hrow
  cases hstep with
  | @metadataInserted msg metadata db htask hinsert
  | @metadataInsertLost msg metadata db _ htask hinsert =>
      simp only [InsertsNew, htask] at h
      rw [(Database.insertMetadata_eq_some.mp hinsert).2.1, KeyedTable.mem_rows_upsert]
      refine Or.inr ⟨hrow, ?_⟩
      intro hkey
      apply h
      rw [show msg.model.specVersion = row.specVersion from hkey.symm]
      exact KeyedTable.key_mem_keys hrow
  | blockInserted htask hinsert | blockInsertLost _ htask hinsert =>
      rw [(Database.insertBlock_eq_some.mp hinsert).2.1]
      exact hrow
  | _ => exact hrow

/-- Only the row of the height at work can be written again. -/
theorem kept_block (hstep : Step metadataAt a reply b) :
    ∀ row ∈ a.db.blocks.rows, row ∈ b.db.blocks.rows ∨
      ∃ msg ∈ a.task.msg?, msg.model.blockNum = row.blockNum := by
  intro row hrow
  cases hstep with
  | @blockInserted msg db htask hinsert | @blockInsertLost msg db _ htask hinsert =>
      rw [(Database.insertBlock_eq_some.mp hinsert).2.2, KeyedTable.mem_rows_upsert]
      by_cases hkey : row.blockNum = msg.model.blockNum
      · exact Or.inr ⟨msg, by simp [htask, ArchiveTask.msg?], hkey.symm⟩
      · exact Or.inl (Or.inr ⟨hrow, hkey⟩)
  | metadataInserted htask hinsert | metadataInsertLost _ htask hinsert =>
      rw [(Database.insertMetadata_eq_some.mp hinsert).2.2]
      exact Or.inl hrow
  | _ => exact Or.inl hrow

theorem stores_of_step (hstep : Step metadataAt a reply b) {n : BlockNumber}
    (hn : b.db.Stores n) : a.db.Stores n ∨ ∃ msg ∈ a.task.msg?, msg.model.blockNum = n := by
  obtain ⟨row, hrow, rfl⟩ := KeyedTable.mem_keys.mp hn
  rcases hstep.mem_blocks row hrow with hrow | ⟨msg, hmsg, rfl⟩
  · exact Or.inl (KeyedTable.key_mem_keys hrow)
  · exact Or.inr ⟨msg, hmsg, rfl⟩

theorem Step.stores (hstep : Step metadataAt a reply b) {n : BlockNumber} (hn : a.db.Stores n) :
    b.db.Stores n := by
  cases hstep with
  | blockInserted htask hinsert | blockInsertLost _ htask hinsert =>
      exact (Database.stores_insertBlock hinsert n).mpr (Or.inr hn)
  | metadataInserted htask hinsert | metadataInsertLost _ htask hinsert =>
      exact (Database.stores_insertMetadata hinsert n).mpr hn
  | _ => exact hn

end Notifier

theorem Loop.Inv.last_le {start n : BlockNumber} {l : Loop} (h : Loop.Inv start l)
    (htoken : l.token = .request n ∨ l.token = .report n) :
    ∀ last ∈ l.heights.getLast?, last ≤ n := by
  intro last hlast
  have hrequestable : Loop.Requestable start l n := by
    rcases htoken with htoken | htoken
    · exact (h.request n htoken).1
    · exact (h.report n htoken).1.requestable
  rw [Loop.Requestable, Option.mem_def.mp hlast] at hrequestable
  exact Pipeline.Loop.Follows.le hrequestable

namespace Pipeline

variable {node : Node} {config : CliConfig} {world : World} {allowed : Pipeline → Event → Prop}
  {s t : Pipeline} {e : Event} {n : BlockNumber}

/-! ## Heights on their way -/

/-- The heights at the archiver and the number in flight, in the order in which
they come to be stored. -/
def onWay (s : Pipeline) : List BlockNumber := s.ahead ++ s.inFlight

theorem Carries.inFlight {token : Token} (h : s.Carries token) :
    s.inFlight = [] ∨ ∃ n, s.inFlight = [n] ∧ (token = .request n ∨ token = .report n) := by
  cases token with
  | unsent | lost => exact Or.inl (by rw [Pipeline.inFlight, h.1, h.2.1]; rfl)
  | request n =>
      exact Or.inr ⟨n, by rw [Pipeline.inFlight, h.1, h.2.1]; rfl, Or.inl rfl⟩
  | report n =>
      exact Or.inr ⟨n, by rw [Pipeline.inFlight, h.1, h.2.1]; rfl, Or.inr rfl⟩

theorem sorted_onWay {archiver : Notifier}
    (hrun : Reaches node config allowed (start config world archiver) s) :
    s.onWay.Pairwise (· ≤ ·) := by
  obtain ⟨world', archiver, hsession⟩ := session_of_reaches hrun
  obtain ⟨⟨l, hl, hsim⟩, -, hfifo, -⟩ := session_invariant hsession
  have hinv := Loop.inv_of_reaches hl
  have hheights : s.heights.IsChain (· ≤ ·) := by
    rw [← hsim.heights]
    exact hinv.ordered.imp fun _ _ h ↦ Loop.Follows.le h
  have hchain : (s.heights ++ s.inFlight).IsChain (· ≤ ·) := by
    rcases hsim.carries.inFlight with hnone | ⟨n, hn, htoken⟩
    · rw [hnone, List.append_nil]
      exact hheights
    · rw [hn]
      refine List.isChain_append.mpr ⟨hheights, List.isChain_singleton n, ?_⟩
      intro last hlast m hm
      obtain rfl : n = m := by simpa using hm
      rw [← hsim.heights] at hlast
      exact hinv.last_le htoken last hlast
  have hsublist : s.onWay.Sublist (s.heights ++ s.inFlight) :=
    hfifo.ahead_suffix.sublist.append_right s.inFlight
  exact (List.isChain_iff_pairwise.mp hchain).sublist hsublist

/-- Nothing on its way is below a stored height. -/
def NeverBelow (s : Pipeline) : Prop :=
  ∀ q ∈ s.onWay, ∀ n, s.archiver.db.Stores n → n ≤ q

theorem mem_onWay_of_msg {msg : ArchiveSendMsg} (h : msg ∈ s.archiver.task.msg?) :
    msg.model.blockNum ∈ s.onWay := by
  have hmsg : s.archiver.task.msg? = some msg := h
  simp [onWay, ahead_of_msg hmsg]

theorem neverBelow_start {archiver : Notifier} (hconfig : config.resetForce = false) :
    NeverBelow (start config world archiver) := by
  intro q hq
  simp [start, hconfig, onWay, ahead, inFlight, requests, reports, Notifier.restart,
    ArchiveTask.msg?, ExecutorTask.requests, ExecutorTask.reports, ComparerTask.holds] at hq

theorem archives_subset {reply : Reply} {archiver : Notifier}
    (hstep : Notifier.Step (node.metadata s.world) s.archiver reply archiver) :
    ∀ q ∈ onWay { s with archiver }, q ∈ s.onWay := by
  intro q hq
  rcases List.mem_append.mp hq with hq | hq
  · obtain ⟨msg, hmsg, rfl⟩ := List.mem_map.mp hq
    rcases List.mem_append.mp hmsg with hmsg | hmsg
    · exact mem_onWay_of_msg (hstep.msg?_mem msg (Option.mem_toList.mp hmsg))
    · refine List.mem_append_left _ (List.mem_map.mpr ⟨msg, ?_, rfl⟩)
      exact List.mem_append_right _ hmsg
  · exact List.mem_append_right _ hq

/-- A number enters the loop at the largest stored height or by going up. -/
theorem mem_onWay_of_step (hbuilt : s.Built) (he : e ≠ .crash)
    (hstep : Step node config s e t) {q : BlockNumber} (hq : q ∈ t.onWay) :
    q ∈ s.onWay ∨ (s.initializer = .starting ∧ q = s.archiver.db.maxBlockNum.getD 0) ∨
      ∃ number, s.comparer = .comparing number ∧
        number < s.world.main.blockchain.info.bestNumber ∧ q = number + 1 := by
  have hflight := mem_inFlight_of_step he hstep (q := q)
  have hsame : q ∈ t.inFlight → q ∈ s.onWay ∨
      (s.initializer = .starting ∧ q = s.archiver.db.maxBlockNum.getD 0) ∨
        ∃ number, s.comparer = .comparing number ∧
          number < s.world.main.blockchain.info.bestNumber ∧ q = number + 1 := by
    intro hq
    rcases hflight hq with hq | hstart | ⟨number, htask, -, hbest, heq⟩
    · exact Or.inl (List.mem_append_right _ hq)
    · exact Or.inr (Or.inl hstart)
    · exact Or.inr (Or.inr ⟨number, htask, hbest, heq⟩)
  cases hstep with
  | crash => exact absurd rfl he
  | archives hstep => exact Or.inl (archives_subset hstep q hq)
  | @executorSends number msg htask =>
      rcases List.mem_append.mp hq with hq | hq
      · have hq' : q ∈ s.ahead ∨ q = number := by
          simpa [ahead, hbuilt number msg htask, or_assoc] using hq
        rcases hq' with hq' | rfl
        · exact Or.inl (List.mem_append_left _ hq')
        · apply Or.inl
          simp [onWay, inFlight, requests, htask, ExecutorTask.requests]
      · exact hsame hq
  | @receives msg queue htask hqueue =>
      apply Or.inl
      simpa [onWay, ahead, htask, hqueue, ArchiveTask.msg?, inFlight, requests, reports] using hq
  | backend | initialized | initializerPanics | executorReceives | executorPanics | genesisPassed
  | executorExecutes | executorBuilds | executorNotifies | comparerReceives | comparerAdvances
  | comparerDelays | comparerResends =>
      rcases List.mem_append.mp hq with hq | hq
      · exact Or.inl (List.mem_append_left _ hq)
      · exact hsame hq

theorem le_onWay_of_msg {msg : ArchiveSendMsg} (hsorted : s.onWay.Pairwise (· ≤ ·))
    (hmsg : msg ∈ s.archiver.task.msg?) : ∀ q ∈ s.onWay, msg.model.blockNum ≤ q := by
  intro q hq
  have hmsg' : s.archiver.task.msg? = some msg := hmsg
  rw [onWay, ahead_of_msg hmsg', List.cons_append] at hsorted hq
  rcases List.mem_cons.mp hq with rfl | hq
  · exact le_rfl
  · exact (List.pairwise_cons.mp hsorted).1 q hq

theorem neverBelow_step (hconfig : config.resetForce = false) (h : s.NeverBelow)
    (hsorted : s.onWay.Pairwise (· ≤ ·)) (hbuilt : s.Built) (hstep : Step node config s e t) :
    t.NeverBelow := by
  have horigin : e ≠ .crash → ∀ q ∈ t.onWay, ∀ n, s.archiver.db.Stores n → n ≤ q := by
    intro he q hq n hn
    rcases mem_onWay_of_step hbuilt he hstep hq with hq | ⟨-, rfl⟩ | ⟨number, htask, -, rfl⟩
    · exact h q hq n hn
    · exact Database.le_maxBlockNum hn
    · have hnumber : number ∈ s.onWay := by
        simp [onWay, inFlight, reports, htask, ComparerTask.holds]
      exact (h number hnumber n hn).trans (Nat.le_succ number)
  cases hstep with
  | crash => exact neverBelow_start hconfig
  | archives hstep =>
      intro q hq n hn
      rcases Notifier.stores_of_step hstep hn with hn | ⟨msg, hmsg, rfl⟩
      · exact horigin (by simp) q hq n hn
      · exact le_onWay_of_msg hsorted hmsg q (archives_subset hstep q hq)
  | _ => exact horigin (by simp)

theorem insertsNew_step (h : s.archiver.InsertsNew) (hstep : Step node config s e t) :
    t.archiver.InsertsNew := by
  cases hstep with
  | crash => exact Notifier.insertsNew_restart
  | receives => trivial
  | archives hstep => exact Notifier.insertsNew_step h hstep
  | _ => exact h

theorem neverBelow_of_reaches {archiver : Notifier} (hconfig : config.resetForce = false)
    (hrun : Reaches node config allowed (start config world archiver) s) :
    s.NeverBelow ∧ s.Built ∧ s.archiver.InsertsNew := by
  induction hrun with
  | refl =>
      exact ⟨neverBelow_start hconfig, by simp [Built, start], Notifier.insertsNew_restart⟩
  | tail hrun hlast ih =>
      obtain ⟨hbelow, hbuilt, hnew⟩ := ih
      obtain ⟨e, -, hnext⟩ := hlast
      have hstep := step_of_next hnext
      exact ⟨neverBelow_step hconfig hbelow (sorted_onWay hrun) hbuilt hstep,
        built_step hbuilt hstep, insertsNew_step hnew hstep⟩

/-! ## Rows that stay -/

/-- The row of a height below a stored one. -/
def Settled (s : Pipeline) (row : BlockModel) : Prop :=
  row ∈ s.archiver.db.blocks.rows ∧ ∃ n, s.archiver.db.Stores n ∧ row.blockNum < n

theorem stores_step (hstep : Step node config s e t) (hn : s.archiver.db.Stores n) :
    t.archiver.db.Stores n := by
  cases hstep with
  | archives hstep => exact hstep.stores hn
  | _ => exact hn

theorem settled_step {row : BlockModel} (hbelow : s.NeverBelow) (h : s.Settled row)
    (hstep : Step node config s e t) : t.Settled row := by
  obtain ⟨hrow, n, hn, hlt⟩ := h
  refine ⟨?_, n, stores_step hstep hn, hlt⟩
  cases hstep with
  | archives hstep =>
      rcases Notifier.kept_block hstep row hrow with hrow | ⟨msg, hmsg, heq⟩
      · exact hrow
      · have hle : n ≤ msg.model.blockNum := hbelow _ (mem_onWay_of_msg hmsg) n hn
        rw [heq] at hle
        exact absurd hlt (not_lt.mpr hle)
  | _ => exact hrow

theorem metadata_step {row : MetadataModel} (hnew : s.archiver.InsertsNew)
    (h : row ∈ s.archiver.db.metadatas.rows) (hstep : Step node config s e t) :
    row ∈ t.archiver.db.metadatas.rows := by
  cases hstep with
  | archives hstep => exact Notifier.kept_metadata hnew hstep row h
  | _ => exact h

theorem settled_of_reaches {row : BlockModel} (hconfig : config.resetForce = false)
    (hrun : Reaches node config allowed (boot config world) s)
    (hmore : Reaches node config allowed s t) (h : s.Settled row) : t.Settled row := by
  induction hmore with
  | refl => exact h
  | tail hmore hlast ih =>
      obtain ⟨e, -, hnext⟩ := hlast
      obtain ⟨hbelow, -, -⟩ := neverBelow_of_reaches hconfig (hrun.trans hmore)
      exact settled_step hbelow ih (step_of_next hnext)

theorem metadata_of_reaches {row : MetadataModel} (hconfig : config.resetForce = false)
    (hrun : Reaches node config allowed (boot config world) s)
    (hmore : Reaches node config allowed s t) (h : row ∈ s.archiver.db.metadatas.rows) :
    row ∈ t.archiver.db.metadatas.rows := by
  induction hmore with
  | refl => exact h
  | tail hmore hlast ih =>
      obtain ⟨e, -, hnext⟩ := hlast
      obtain ⟨-, -, hnew⟩ := neverBelow_of_reaches hconfig (hrun.trans hmore)
      exact metadata_step hnew ih (step_of_next hnext)

/-- In every run from empty tables with `reset_force` off, a row of `blocks`
stays as it is once a larger height is stored, and a row of `metadatas` from
the start. -/
theorem append_only (hconfig : config.resetForce = false)
    (hrun : Reaches node config (fun _ _ ↦ True) (boot config world) s)
    (hmore : Reaches node config (fun _ _ ↦ True) s t) :
    (∀ row ∈ s.archiver.db.blocks.rows, ∀ n, s.archiver.db.Stores n → row.blockNum < n →
      row ∈ t.archiver.db.blocks.rows) ∧
    ∀ row ∈ s.archiver.db.metadatas.rows, row ∈ t.archiver.db.metadatas.rows := by
  refine ⟨?_, fun row hrow ↦ metadata_of_reaches hconfig hrun hmore hrow⟩
  intro row hrow n hn hlt
  exact (settled_of_reaches hconfig hrun hmore ⟨hrow, n, hn, hlt⟩).1

/-- After a restart on another branch block one is archived again. -/
def Sample.branchEvents : List Event :=
  .backend (Sample.world [(9, 1)]) :: .crash :: .initializer .ok :: Sample.archiveEvents ++
    [.archiver .ok, .archiver .ok]

/-- What is seen after some events and after more events. -/
def Sample.twice {α : Type} (entries : List (UInt8 × UInt8)) (first more : List Event)
    (view : Pipeline → α) : Option (α × α) :=
  (Transition.execute (next Sample.node ⟨0, false⟩) (fun _ _ ↦ True)
    (boot ⟨0, false⟩ (Sample.world entries)) first).bind fun s ↦
      (Transition.execute (next Sample.node ⟨0, false⟩) (fun _ _ ↦ True) s more).map fun t ↦
        (view s, view t)

theorem Sample.exists_of_twice {α : Type} {entries : List (UInt8 × UInt8)}
    {first more : List Event} {view : Pipeline → α} {a b : α}
    (h : Sample.twice entries first more view = some (a, b)) :
    ∃ s t, Reaches Sample.node ⟨0, false⟩ (fun _ _ ↦ True)
        (boot ⟨0, false⟩ (Sample.world entries)) s ∧
      Reaches Sample.node ⟨0, false⟩ (fun _ _ ↦ True) s t ∧ view s = a ∧ view t = b := by
  obtain ⟨s, hs, hrest⟩ := Option.bind_eq_some_iff.mp h
  obtain ⟨t, ht, hview⟩ := Option.map_eq_some_iff.mp hrest
  obtain ⟨hview, hview'⟩ := Prod.mk.inj hview
  exact ⟨s, t, .of_execute (fun _ _ _ h ↦ h) hs, .of_execute (fun _ _ _ h ↦ h) ht, hview, hview'⟩

theorem append_only_other_branch :
    ∃ s t, Reaches Sample.node ⟨0, false⟩ (fun _ _ ↦ True)
        (boot ⟨0, false⟩ (Sample.world [(5, 1)])) s ∧
      Reaches Sample.node ⟨0, false⟩ (fun _ _ ↦ True) s t ∧
      s.archiver.db.blocks.rows.map (·.blockHash) = [[0, 0], [1, 5]] ∧
      t.archiver.db.blocks.rows.map (·.blockHash) = [[0, 0], [1, 9]] ∧
      ∀ row ∈ s.archiver.db.blocks.rows, ∀ n, s.archiver.db.Stores n → row.blockNum < n →
        row ∈ t.archiver.db.blocks.rows := by
  have hcompute : Sample.twice [(5, 1)] Sample.restartEvents Sample.branchEvents
      (fun s ↦ s.archiver.db.blocks.rows.map (·.blockHash)) =
      some ([[0, 0], [1, 5]], [[0, 0], [1, 9]]) := by
    decide +kernel
  obtain ⟨s, t, hrun, hmore, hview, hview'⟩ := Sample.exists_of_twice hcompute
  exact ⟨s, t, hrun, hmore, hview, hview', (append_only rfl hrun hmore).1⟩

end Pipeline

end SubArchive
