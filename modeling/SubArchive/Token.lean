import Mathlib.Data.List.Chain
import SubArchive.Chain
import SubArchive.Pipeline

/-!
# The token

In one session a single block number travels round the loop of executor and
comparer.  `Loop` is that journey by itself: the number is a *request* until
the executor has sent its message and a *report* from then on until the
comparer puts the next number on the queue.  The pipeline simulates it.
-/

namespace SubArchive

/-! ## The journey of one number -/

inductive Token where
  | unsent
  | request (number : BlockNumber)
  | report (number : BlockNumber)
  | lost
deriving DecidableEq, Repr

/-- The token, the heights sent so far, the best numbers read so far and
whether the genesis block was passed over. -/
structure Loop where
  token : Token
  heights : List BlockNumber
  bests : List BlockNumber
  passed : Bool
deriving DecidableEq, Repr

namespace Loop

def initial : Loop := ⟨.unsent, [], [], false⟩

inductive Step (start : BlockNumber) (l : Loop) : Loop → Prop
  | start (htoken : l.token = .unsent) : Step start l { l with token := .request start }
  | fail (htoken : l.token = .unsent) : Step start l { l with token := .lost }
  | send {n} (htoken : l.token = .request n) :
      Step start l { l with token := .report n, heights := l.heights ++ [n] }
  | pass (htoken : l.token = .request 0) :
      Step start l { l with token := .report 0, passed := true }
  | lose {n} (htoken : l.token = .request n) : Step start l { l with token := .lost }
  | advance {n best} (htoken : l.token = .report n) (hbest : n < best) :
      Step start l { l with token := .request (n + 1), bests := l.bests ++ [best] }
  | observe {n} (best : BlockNumber) (htoken : l.token = .report n) :
      Step start l { l with bests := l.bests ++ [best] }
  | resend {n} (htoken : l.token = .report n) : Step start l { l with token := .request n }

abbrev Reaches (start : BlockNumber) : Loop → Prop :=
  Relation.ReflTransGen (Step start) initial

/-- The height after `h`: again `h`, or the next one once a best number above
`h` was read. -/
def Follows (bests : List BlockNumber) (h h' : BlockNumber) : Prop :=
  h' = h ∨ (h' = h + 1 ∧ ∃ best ∈ bests, h < best)

/-- The first height: the start number, or `0` or `1` when the start is `0`
and the genesis block was passed over. -/
def First (start : BlockNumber) (passed : Prop) (h : BlockNumber) : Prop :=
  h = start ∨ (start = 0 ∧ h ≤ 1 ∧ passed)

theorem Follows.mono {bests : List BlockNumber} {h h' : BlockNumber} (hf : Follows bests h h')
    (more : List BlockNumber) : Follows (bests ++ more) h h' := by
  rcases hf with heq | ⟨heq, best, hbest, hlt⟩
  · exact Or.inl heq
  · exact Or.inr ⟨heq, best, List.mem_append_left _ hbest, hlt⟩

theorem First.mono {start h : BlockNumber} {passed passed' : Prop} (hf : First start passed h)
    (hp : passed → passed') : First start passed' h :=
  hf.imp_right fun ⟨hstart, hle, hpassed⟩ ↦ ⟨hstart, hle, hp hpassed⟩

/-- A number that may be requested after the heights sent so far. -/
def Requestable (start : BlockNumber) (l : Loop) (n : BlockNumber) : Prop :=
  match l.heights.getLast? with
  | none => First start l.passed n
  | some h => Follows l.bests h n

/-- A number that may be reported after the heights sent so far. -/
def Reportable (start : BlockNumber) (l : Loop) (n : BlockNumber) : Prop :=
  match l.heights.getLast? with
  | none => n = 0 ∧ start = 0 ∧ l.passed
  | some h => n = h

/-- The start number or a best number that was read covers `n`. -/
def Covered (start : BlockNumber) (bests : List BlockNumber) (n : BlockNumber) : Prop :=
  n ≤ start ∨ ∃ best ∈ bests, n ≤ best

structure Inv (start : BlockNumber) (l : Loop) : Prop where
  unsent : l.token = .unsent → l.heights = []
  request : ∀ n, l.token = .request n → Requestable start l n ∧ Covered start l.bests n
  report : ∀ n, l.token = .report n → Reportable start l n ∧ Covered start l.bests n
  ordered : l.heights.IsChain (Follows l.bests)
  first : ∀ h ∈ l.heights.head?, First start l.passed h

theorem Covered.mono {start n : BlockNumber} {bests : List BlockNumber}
    (h : Covered start bests n) (more : List BlockNumber) : Covered start (bests ++ more) n :=
  h.imp_right fun ⟨best, hbest, hle⟩ ↦ ⟨best, List.mem_append_left _ hbest, hle⟩

theorem Reportable.requestable {start n : BlockNumber} {l : Loop} (h : Reportable start l n) :
    Requestable start l n := by
  revert h
  unfold Reportable Requestable
  rcases l.heights.getLast? with _ | height
  · rintro ⟨rfl, hstart, -⟩
    exact Or.inl hstart.symm
  · intro heq
    exact Or.inl heq

theorem Reportable.requestable_succ {start n best : BlockNumber} {l : Loop}
    (h : Reportable start l n) (hmem : best ∈ l.bests) (hbest : n < best) :
    Requestable start l (n + 1) := by
  revert h
  unfold Reportable Requestable
  rcases l.heights.getLast? with _ | height
  · rintro ⟨rfl, hstart, hpassed⟩
    exact Or.inr ⟨hstart, le_rfl, hpassed⟩
  · rintro rfl
    exact Or.inr ⟨rfl, best, hmem, hbest⟩

/-- A request for the genesis block can be answered by passing over it. -/
theorem Requestable.pass {start : BlockNumber} {l : Loop} (h : Requestable start l 0) :
    Reportable start { l with token := .report 0, passed := true } 0 := by
  revert h
  unfold Requestable Reportable
  dsimp only
  rcases l.heights.getLast? with _ | height
  · rintro (heq | ⟨hstart, -⟩)
    · exact ⟨rfl, heq.symm, rfl⟩
    · exact ⟨rfl, hstart, rfl⟩
  · rintro (heq | ⟨heq, -⟩)
    · exact heq
    · exact absurd heq (Nat.succ_ne_zero height).symm

theorem inv_initial (start : BlockNumber) : Inv start initial := by
  constructor <;> simp [initial]

theorem inv_step {start : BlockNumber} {l l' : Loop} (hinv : Inv start l)
    (hstep : Step start l l') : Inv start l' := by
  obtain ⟨hunsent, hrequest, hreport, hordered, hfirst⟩ := hinv
  cases hstep with
  | start htoken =>
      have hnil := hunsent htoken
      refine ⟨by simp, ?_, by simp, hordered, hfirst⟩
      intro n hn
      obtain rfl : start = n := by simpa using hn
      exact ⟨by simp [Requestable, hnil, First], Or.inl le_rfl⟩
  | @send n htoken =>
      obtain ⟨hreq, hcov⟩ := hrequest n htoken
      refine ⟨by simp, by simp, ?_, ?_, ?_⟩
      · intro m hm
        obtain rfl : n = m := by simpa using hm
        exact ⟨by simp [Reportable], hcov⟩
      · rcases hlast : l.heights.getLast? with _ | h
        · rw [List.getLast?_eq_none_iff] at hlast
          simp [hlast]
        · refine List.isChain_append.mpr ⟨hordered, by simp, ?_⟩
          intro x hx y hy
          obtain rfl : h = x := by simpa [hlast] using hx
          obtain rfl : n = y := by simpa using hy
          simpa [Requestable, hlast] using hreq
      · rcases hhead : l.heights with _ | ⟨x, xs⟩
        · intro h hh
          obtain rfl : n = h := by simpa [hhead] using hh
          simpa [Requestable, hhead] using hreq
        · intro h hh
          exact hfirst h (by simpa [hhead] using hh)
  | pass htoken =>
      obtain ⟨hreq, hcov⟩ := hrequest 0 htoken
      refine ⟨by simp, by simp, ?_, hordered, fun h hh ↦ (hfirst h hh).mono fun _ ↦ rfl⟩
      intro m hm
      obtain rfl : 0 = m := by simpa using hm
      exact ⟨hreq.pass, hcov⟩
  | fail htoken | lose htoken => exact ⟨by simp, by simp, by simp, hordered, hfirst⟩
  | @advance n best htoken hbest =>
      obtain ⟨hrep, hcov⟩ := hreport n htoken
      refine ⟨by simp, ?_, by simp, ?_, hfirst⟩
      · intro m hm
        obtain rfl : n + 1 = m := by simpa using hm
        exact ⟨Reportable.requestable_succ hrep (List.mem_append_right _ List.mem_cons_self) hbest,
          Or.inr ⟨best, by simp, hbest⟩⟩
      · exact hordered.imp fun _ _ h ↦ h.mono _
  | @observe n best htoken =>
      refine ⟨by simpa using hunsent, ?_, ?_, hordered.imp fun _ _ h ↦ h.mono _, hfirst⟩
      · intro m hm
        simp [htoken] at hm
      · intro m hm
        obtain ⟨hrep, hcov⟩ := hreport m hm
        exact ⟨by simpa [Reportable] using hrep, hcov.mono _⟩
  | @resend n htoken =>
      obtain ⟨hrep, hcov⟩ := hreport n htoken
      refine ⟨by simp, ?_, by simp, hordered, hfirst⟩
      intro m hm
      obtain rfl : n = m := by simpa using hm
      exact ⟨Reportable.requestable hrep, hcov⟩

theorem inv_of_reaches {start : BlockNumber} {l : Loop} (h : Reaches start l) : Inv start l := by
  induction h with
  | refl => exact inv_initial start
  | tail _ hstep ih => exact inv_step ih hstep

end Loop

/-! ## The numbers in flight -/

/-- The number the executor still has to send a message for. -/
def ExecutorTask.requests : ExecutorTask → List BlockNumber
  | .received number | .executed number _ _ | .built number _ => [number]
  | _ => []

/-- The number the executor has to hand to the comparer. -/
def ExecutorTask.reports : ExecutorTask → List BlockNumber
  | .notifying number => [number]
  | _ => []

def ComparerTask.holds : ComparerTask → List BlockNumber
  | .comparing number | .delaying number => [number]
  | .waiting => []

namespace Pipeline

def requests (s : Pipeline) : List BlockNumber := s.executor.requests ++ s.executorQueue

def reports (s : Pipeline) : List BlockNumber :=
  s.comparer.holds ++ s.comparerQueue ++ s.executor.reports

/-- The executor queue, the number the executor is processing, the comparer
queue and the number being compared. -/
def inFlight (s : Pipeline) : List BlockNumber := s.requests ++ s.reports

def heights (s : Pipeline) : List BlockNumber := s.archived.map fun msg ↦ msg.model.blockNum

def Started (s : Pipeline) : Prop := s.initializer = .finished

def ExecutorPanicked (s : Pipeline) : Prop := ∃ message, s.executor = .panicked message

/-- The number that starts a session over the tables `db`. -/
def startNumber (config : CliConfig) (db : Database) : BlockNumber :=
  if config.resetForce then config.blockNum else db.maxBlockNum.getD 0

def InSession (_ : Pipeline) (e : Event) : Prop := e ≠ .crash

instance (s : Pipeline) (e : Event) : Decidable (InSession s e) :=
  match e with
  | .crash => isFalse fun h ↦ h rfl
  | .backend _ | .initializer _ | .executor | .comparer | .receive | .archiver _ =>
      isTrue (by simp [InSession])

/-- At some moment of the session the executor could not read the genesis
block. -/
def GenesisUnread (node : Node) (config : CliConfig) (s₀ s : Pipeline) : Prop :=
  ∃ u, Reaches node config InSession s₀ u ∧ Reaches node config InSession u s ∧
    u.executor = .received 0 ∧ node.archiveExecute u.world 0 = .ok none

/-- The state of the pipeline that the token stands for. -/
def Carries (s : Pipeline) : Token → Prop
  | .unsent => s.requests = [] ∧ s.reports = [] ∧ s.initializer = .starting ∧
      ¬ s.ExecutorPanicked
  | .request n => s.requests = [n] ∧ s.reports = [] ∧ s.Started ∧ ¬ s.ExecutorPanicked
  | .report n => s.requests = [] ∧ s.reports = [n] ∧ s.Started ∧ ¬ s.ExecutorPanicked
  | .lost => s.requests = [] ∧ s.reports = [] ∧ s.initializer ≠ .starting ∧
      (s.Started → s.ExecutorPanicked)

/-- A message was built for the number it goes with. -/
def Built (s : Pipeline) : Prop :=
  ∀ number msg, s.executor = .built number msg → msg.model.blockNum = number

/-- The archiver has taken the messages before its queue, in order, and is at
work on the last of them. -/
def Fifo (s : Pipeline) : Prop :=
  ∃ received, s.archived = received ++ s.archiverQueue ∧
    ∀ msg ∈ s.archiver.task.msg?, received.getLast? = some msg

/-- Before the start number is sent nothing but the backends has moved. -/
def Untouched (config : CliConfig) (archiver : Notifier) (s : Pipeline) : Prop :=
  s.initializer = .starting → config.resetForce = false ∧ s = start config s.world archiver

variable {node : Node} {config : CliConfig} {world : World} {archiver : Notifier}
  {s₀ s t : Pipeline} {e : Event} {n : BlockNumber}

theorem untouched_start : Untouched config archiver (start config world archiver) := by
  intro hstarting
  refine ⟨?_, rfl⟩
  by_contra hreset
  simp [start, hreset] at hstarting

theorem untouched_step (hinv : Untouched config archiver s) (he : e ≠ .crash)
    (hstep : Step node config s e t) : Untouched config archiver t := by
  intro hstarting
  have hbefore : s.initializer = .starting := by
    cases hstep <;> first | exact hstarting | simp_all
  obtain ⟨hreset, heq⟩ := hinv hbefore
  refine ⟨hreset, ?_⟩
  have hexecutor : s.executor = .waiting := congrArg Pipeline.executor heq
  have hcomparer : s.comparer = .waiting := congrArg Pipeline.comparer heq
  have harchiver : s.archiver.task = .waiting := congrArg (fun u ↦ u.archiver.task) heq
  have hexecutorQueue : s.executorQueue = [] := by
    simpa [start, hreset] using congrArg Pipeline.executorQueue heq
  have hcomparerQueue : s.comparerQueue = [] := congrArg Pipeline.comparerQueue heq
  have harchiverQueue : s.archiverQueue = [] := congrArg Pipeline.archiverQueue heq
  cases hstep with
  | backend world =>
      rw [heq]
      rfl
  | crash => exact absurd rfl he
  | initialized htask => simp at hstarting
  | initializerPanics message htask => simp at hstarting
  | executorReceives htask hqueue => simp [hexecutorQueue] at hqueue
  | executorPanics message hpanic => simp [hexecutor] at hpanic
  | comparerReceives htask hqueue => simp [hcomparerQueue] at hqueue
  | receives htask hqueue => simp [harchiverQueue] at hqueue
  | comparerAdvances htask | comparerDelays htask | comparerResends htask =>
      simp [hcomparer] at htask
  | archives hstep => exact absurd harchiver (Notifier.Step.not_waiting hstep)
  | genesisPassed htask | executorExecutes htask | executorBuilds htask
  | executorSends htask | executorNotifies htask => simp [hexecutor] at htask

theorem Untouched.startNumber (h : Untouched config archiver s)
    (hstarting : s.initializer = .starting) :
    s.archiver.db.maxBlockNum.getD 0 = startNumber config archiver.db := by
  obtain ⟨hreset, heq⟩ := h hstarting
  rw [congrArg Pipeline.archiver heq, Pipeline.startNumber, hreset]
  rfl

theorem built_step (hinv : s.Built) (hstep : Step node config s e t) : t.Built := by
  cases hstep with
  | executorBuilds htask hbuild =>
      intro number msg hbuilt
      obtain ⟨rfl, rfl⟩ := by simpa using hbuilt
      obtain ⟨version, -, rfl⟩ := Node.archiveBuild_eq_ok.mp hbuild
      rfl
  | backend | initialized | initializerPanics | comparerReceives | comparerAdvances
  | comparerDelays | comparerResends | receives | archives => exact hinv
  | _ => simp [Built, start]

theorem fifo_step (hinv : s.Fifo) (hstep : Step node config s e t) : t.Fifo := by
  obtain ⟨received, harchived, hcurrent⟩ := hinv
  cases hstep with
  | crash => exact ⟨[], by simp [start], by simp [start, Notifier.restart, ArchiveTask.msg?]⟩
  | @executorSends number msg htask =>
      exact ⟨received, by simp [harchived], hcurrent⟩
  | @receives msg queue htask hqueue =>
      refine ⟨received ++ [msg], by simp [harchived, hqueue], ?_⟩
      simp [ArchiveTask.msg?]
  | archives hstep =>
      exact ⟨received, harchived, fun msg hmsg ↦ hcurrent msg (hstep.msg?_mem msg hmsg)⟩
  | _ => exact ⟨received, harchived, hcurrent⟩

theorem GenesisUnread.tail (h : GenesisUnread node config s₀ s)
    (hlast : Transition.Step (next node config) InSession s t) :
    GenesisUnread node config s₀ t := by
  obtain ⟨u, hfirst, hsecond, hu⟩ := h
  exact ⟨u, hfirst, hsecond.tail hlast, hu⟩

theorem Carries.of_starting {token : Token} (h : s.Carries token)
    (hstarting : s.initializer = .starting) : token = .unsent := by
  cases token with
  | unsent => rfl
  | request m | report m => simp [Carries, Started, hstarting] at h
  | lost => simp [Carries, hstarting] at h

theorem Carries.of_request {token : Token} (h : s.Carries token)
    (hnumber : s.executor.requests = [n]) : token = .request n ∧ s.executorQueue = [] ∧
      s.reports = [] ∧ s.Started ∧ ¬ s.ExecutorPanicked := by
  have hrequests : s.requests = n :: s.executorQueue := by rw [requests, hnumber]; rfl
  cases token with
  | request m =>
      obtain ⟨hm, hreports, hstarted, hpanicked⟩ := h
      obtain ⟨rfl, hqueue⟩ : m = n ∧ [] = s.executorQueue := by
        simpa using hm.symm.trans hrequests
      exact ⟨rfl, hqueue.symm, hreports, hstarted, hpanicked⟩
  | unsent | report m | lost => exact absurd (h.1.symm.trans hrequests) (by simp)

theorem Carries.of_report {token : Token} (h : s.Carries token)
    (hnumber : s.comparer.holds = [n]) : token = .report n ∧
      s.comparerQueue ++ s.executor.reports = [] ∧ s.requests = [] ∧ s.Started ∧
      ¬ s.ExecutorPanicked := by
  have hreports : s.reports = n :: (s.comparerQueue ++ s.executor.reports) := by
    rw [reports, hnumber, List.append_assoc]; rfl
  cases token with
  | report m =>
      obtain ⟨hrequests, hm, hstarted, hpanicked⟩ := h
      obtain ⟨rfl, hrest⟩ : m = n ∧ [] = s.comparerQueue ++ s.executor.reports := by
        simpa using hm.symm.trans hreports
      exact ⟨rfl, hrest.symm, hrequests, hstarted, hpanicked⟩
  | unsent | request m | lost => exact absurd (h.2.1.symm.trans hreports) (by simp)

theorem Carries.congr {token : Token} (h : s.Carries token) (hrequests : t.requests = s.requests)
    (hreports : t.reports = s.reports) (hinitializer : t.initializer = s.initializer)
    (hexecutor : t.ExecutorPanicked ↔ s.ExecutorPanicked) : t.Carries token := by
  cases token <;> simpa [Carries, Started, hrequests, hreports, hinitializer, hexecutor] using h

/-- `l` is the journey of the token up to `s`. -/
structure Simulates (node : Node) (config : CliConfig) (s₀ s : Pipeline) (l : Loop) : Prop where
  carries : s.Carries l.token
  heights : l.heights = s.heights
  bests : l.bests = s.bests
  passed : l.passed = true → GenesisUnread node config s₀ s

theorem simulates_step {l : Loop} (hrun : Reaches node config InSession s₀ s)
    (hsim : Simulates node config s₀ s l) (hbuilt : s.Built)
    (hstart : s.initializer = .starting → s.archiver.db.maxBlockNum.getD 0 = n)
    (hlast : Transition.Step (next node config) InSession s t) :
    ∃ l', Relation.ReflTransGen (Loop.Step n) l l' ∧ Simulates node config s₀ t l' := by
  obtain ⟨hcarries, hheights, hbests, hpassed⟩ := hsim
  have hpassed' := fun h ↦ (hpassed h).tail hlast
  -- the token stays where it is
  have hstay : t.requests = s.requests → t.reports = s.reports → t.initializer = s.initializer →
      (t.ExecutorPanicked ↔ s.ExecutorPanicked) → t.heights = s.heights → t.bests = s.bests →
      ∃ l', Relation.ReflTransGen (Loop.Step n) l l' ∧ Simulates node config s₀ t l' := by
    intro hreq hrep hini hpan hhei hbes
    exact ⟨l, .refl, hcarries.congr hreq hrep hini hpan, hheights.trans hhei.symm,
      hbests.trans hbes.symm, hpassed'⟩
  obtain ⟨e, he, hnext⟩ := hlast
  cases step_of_next hnext with
  | backend | receives | archives => exact hstay rfl rfl rfl Iff.rfl rfl rfl
  | crash => exact absurd rfl he
  | initialized htask =>
      have htoken := hcarries.of_starting htask
      obtain ⟨hrequests, hreports, -, hpanicked⟩ := htoken ▸ hcarries
      refine ⟨_, .single (.start htoken), ⟨?_, hreports, rfl, hpanicked⟩, hheights, hbests,
        hpassed'⟩
      simp [requests, List.append_eq_nil_iff.mp hrequests, hstart htask]
  | initializerPanics message htask =>
      have htoken := hcarries.of_starting htask
      obtain ⟨hrequests, hreports, -⟩ := htoken ▸ hcarries
      refine ⟨_, .single (.fail htoken), ⟨hrequests, hreports, by simp, by simp [Started]⟩,
        hheights, hbests, hpassed'⟩
  | executorReceives htask hqueue =>
      refine hstay ?_ ?_ rfl ?_ rfl rfl <;>
        simp [requests, reports, ExecutorTask.requests, ExecutorTask.reports, ExecutorPanicked,
          htask, hqueue]
  | executorPanics message hpanic =>
      obtain ⟨number, hnumber⟩ : ∃ number, s.executor.requests = [number] := by
        rcases hpanic with ⟨number, htask, -⟩ | ⟨number, storages, signedBlock, htask, -⟩ <;>
          exact ⟨number, by rw [htask]; rfl⟩
      obtain ⟨htoken, hqueue, hreports, hstarted, -⟩ := hcarries.of_request hnumber
      refine ⟨_, .single (.lose htoken), ⟨?_, ?_, ?_, fun _ ↦ ⟨message, rfl⟩⟩, hheights, hbests,
        hpassed'⟩
      · simp [requests, ExecutorTask.requests, hqueue]
      · simp_all [reports, ExecutorTask.reports]
      · rw [hstarted]
        simp
  | genesisPassed htask hexecute =>
      obtain ⟨htoken, hqueue, hreports, hstarted, -⟩ :=
        hcarries.of_request (n := 0) (by rw [htask]; rfl)
      refine ⟨_, .single (.pass htoken), ⟨?_, ?_, hstarted, ?_⟩, hheights, hbests, fun _ ↦ ?_⟩
      · simp [requests, ExecutorTask.requests, hqueue]
      · simp_all [reports, ExecutorTask.reports]
      · simp [ExecutorPanicked]
      · exact ⟨s, hrun, .single ⟨_, he, hnext⟩, htask, hexecute⟩
  | @executorSends number msg htask =>
      obtain ⟨htoken, hqueue, hreports, hstarted, -⟩ :=
        hcarries.of_request (n := number) (by rw [htask]; rfl)
      refine ⟨_, .single (.send htoken), ⟨?_, ?_, hstarted, ?_⟩, ?_, hbests, hpassed'⟩
      · simp [requests, ExecutorTask.requests, hqueue]
      · simp_all [reports, ExecutorTask.reports]
      · simp [ExecutorPanicked]
      · simp [heights, hheights, hbuilt number msg htask]
  | executorExecutes htask | executorBuilds htask | executorNotifies htask =>
      refine hstay ?_ ?_ rfl ?_ rfl rfl <;>
        simp [requests, reports, ExecutorTask.requests, ExecutorTask.reports, ExecutorPanicked,
          htask]
  | comparerReceives htask hqueue =>
      refine hstay rfl ?_ rfl Iff.rfl rfl rfl
      simp [reports, ComparerTask.holds, htask, hqueue]
  | @comparerAdvances number htask hbest =>
      obtain ⟨htoken, hrest, hrequests, hstarted, hpanicked⟩ :=
        hcarries.of_report (n := number) (by rw [htask]; rfl)
      refine ⟨_, .single (.advance htoken hbest), ⟨?_, ?_, hstarted, hpanicked⟩, hheights, ?_,
        hpassed'⟩
      · simp [requests, List.append_eq_nil_iff.mp hrequests]
      · simpa [reports, ComparerTask.holds] using hrest
      · simp [hbests]
  | @comparerDelays number htask =>
      obtain ⟨htoken, -⟩ := hcarries.of_report (n := number) (by rw [htask]; rfl)
      refine ⟨_, .single (.observe s.world.main.blockchain.info.bestNumber htoken),
        hcarries.congr rfl ?_ rfl Iff.rfl, hheights, ?_, hpassed'⟩
      · simp [reports, ComparerTask.holds, htask]
      · simp [hbests]
  | @comparerResends number htask =>
      obtain ⟨htoken, hrest, hrequests, hstarted, hpanicked⟩ :=
        hcarries.of_report (n := number) (by rw [htask]; rfl)
      refine ⟨_, .single (.resend htoken), ⟨?_, ?_, hstarted, hpanicked⟩, hheights, hbests,
        hpassed'⟩
      · simp [requests, List.append_eq_nil_iff.mp hrequests]
      · simpa [reports, ComparerTask.holds] using hrest

theorem simulates_start : ∃ l, Loop.Reaches (startNumber config archiver.db) l ∧
    Simulates node config s₀ (start config world archiver) l := by
  cases hreset : config.resetForce with
  | false =>
      refine ⟨.initial, .refl, ?_, rfl, rfl, by simp [Loop.initial]⟩
      simp [Carries, Loop.initial, requests, reports, start, hreset, ExecutorTask.requests,
        ExecutorTask.reports, ComparerTask.holds, ExecutorPanicked]
  | true =>
      refine ⟨_, .single (.start rfl), ?_, rfl, rfl, by simp [Loop.initial]⟩
      simp [Carries, requests, reports, start, startNumber, hreset, ExecutorTask.requests,
        ExecutorTask.reports, ComparerTask.holds, ExecutorPanicked, Started]

/-- What holds along a session: the journey of the token and the order of the
messages. -/
theorem session_invariant
    (hrun : Reaches node config InSession (start config world archiver) s) :
    (∃ l, Loop.Reaches (startNumber config archiver.db) l ∧
      Simulates node config (start config world archiver) s l) ∧
    s.Built ∧ s.Fifo ∧ Untouched config archiver s := by
  induction hrun with
  | refl =>
      refine ⟨simulates_start, by simp [Built, start], ⟨[], by simp [start], ?_⟩, untouched_start⟩
      simp [start, Notifier.restart, ArchiveTask.msg?]
  | tail hrun hlast ih =>
      obtain ⟨⟨l, hl, hsim⟩, hbuilt, hfifo, huntouched⟩ := ih
      obtain ⟨e, he, hnext⟩ := id hlast
      have hstep := step_of_next hnext
      refine ⟨?_, built_step hbuilt hstep, fifo_step hfifo hstep,
        untouched_step huntouched he hstep⟩
      have hstart := fun hstarting ↦ huntouched.startNumber hstarting
      obtain ⟨l', hsteps, hsim'⟩ := simulates_step hrun hsim hbuilt hstart hlast
      exact ⟨l', hl.trans hsteps, hsim'⟩

/-- In one session at most one number is in flight, and exactly one from the
start number on until the executor panics.  The heights sent to the archiver
stay or go up by one, and go up only past a best number that was read. -/
theorem single_token
    (hrun : Reaches node config InSession (start config world archiver) s) :
    (s.Started → ¬ s.ExecutorPanicked → s.inFlight.length = 1) ∧
    (¬ s.Started → s.inFlight = []) ∧
    s.heights.IsChain (Loop.Follows s.bests) ∧
    (∀ h ∈ s.heights.head?, Loop.First (startNumber config archiver.db)
      (GenesisUnread node config (start config world archiver) s) h) ∧
    (∀ n ∈ s.inFlight, Loop.Covered (startNumber config archiver.db) s.bests n) ∧
    s.Fifo := by
  obtain ⟨⟨l, hl, hcarries, hheights, hbests, hpassed⟩, -, hfifo, -⟩ := session_invariant hrun
  have hinv := Loop.inv_of_reaches hl
  refine ⟨?_, ?_, ?_, ?_, ?_, hfifo⟩
  · intro hstarted hpanicked
    cases htoken : l.token with
    | unsent => simp_all [Carries, Started]
    | request n => simp_all [Carries, inFlight]
    | report n => simp_all [Carries, inFlight]
    | lost => exact absurd ((htoken ▸ hcarries).2.2.2 hstarted) hpanicked
  · intro hstarted
    cases htoken : l.token <;> simp_all [Carries, inFlight]
  · rw [← hheights, ← hbests]
    exact hinv.ordered
  · intro h hh
    exact (hinv.first h (by rwa [hheights])).mono hpassed
  · intro n hn
    rw [← hbests]
    cases htoken : l.token with
    | unsent => simp_all [Carries, inFlight]
    | lost => simp_all [Carries, inFlight]
    | request m =>
        obtain rfl : n = m := by simp_all [Carries, inFlight]
        exact (hinv.request n htoken).2
    | report m =>
        obtain rfl : n = m := by simp_all [Carries, inFlight]
        exact (hinv.report n htoken).2

theorem single_token_two_blocks :
    ∃ s, Reaches Sample.node ⟨0, false⟩ InSession
        (start ⟨0, false⟩ (Sample.world [(5, 1)]) ⟨.waiting, .empty, []⟩) s ∧
      s.heights = [0, 1] ∧ s.inFlight.length = 1 ∧
      s.heights.IsChain (Loop.Follows s.bests) := by
  let events : List Event := [.initializer .ok, .executor, .executor, .executor, .executor,
    .executor, .comparer, .comparer, .executor, .executor, .executor, .executor]
  have hcompute : (Transition.execute (next Sample.node ⟨0, false⟩) InSession
      (start ⟨0, false⟩ (Sample.world [(5, 1)]) ⟨.waiting, .empty, []⟩) events).map
      (fun s ↦ (s.initializer, s.executor.reports, s.heights)) = some (.finished, [1], [0, 1]) :=
    rfl
  obtain ⟨s, hrun, hview⟩ := Transition.Reaches.exists_of_execute (fun _ _ _ h ↦ h) hcompute
  simp only [Prod.mk.injEq] at hview
  obtain ⟨hstarted, hreports, hheights⟩ := hview
  have hpanicked : ¬ s.ExecutorPanicked := by
    rintro ⟨message, hmessage⟩
    simp [hmessage, ExecutorTask.reports] at hreports
  obtain ⟨hone, -, hordered, -⟩ := single_token hrun
  exact ⟨s, hrun, hheights, hone hstarted hpanicked, hordered⟩

end Pipeline

end SubArchive
