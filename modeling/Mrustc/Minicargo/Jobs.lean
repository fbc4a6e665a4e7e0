import Mathlib.Tactic

/-! # The job list of minicargo

`JobList::run_all` as a state machine. A choice says which running process ends and how, or
whether the jobserver grants a token; everything else is decided by the state.
-/

namespace Mrustc.Minicargo

/-- What the job list asks of a job. -/
structure Job where
  name : List UInt8
  dependencies : List (List UInt8)
  isAlreadyComplete : Bool
  isRunnable : Bool
  deriving DecidableEq, Repr

/-- Where `run_all` is: in its main loop, the loops that wait, or behind them. -/
inductive Phase
  | main | wait | schedule | token | poll | start | drain | done
  deriving DecidableEq, Repr

structure JobList where
  waitingJobs : List Job
  runnableJobs : List Job
  runningJobs : List Job
  completedJobs : List (List UInt8)
  failed : Bool
  nTokens : ℕ
  forceWait : Bool
  phase : Phase
  deriving DecidableEq, Repr

/-- The arguments of `run_all`, and whether there is a jobserver. -/
structure RunOptions where
  numJobs : ℕ
  dryRun : Bool
  jobserver : Bool
  deriving DecidableEq, Repr

/-- What `waitpid` reports: the running process that ended, whether it succeeded and what
`Job::complete` makes of it. -/
inductive WaitResult
  | ended (index : ℕ) (success complete : Bool)
  | nothing
  | error
  deriving DecidableEq, Repr

inductive Choice
  | none
  | waitOne (result : WaitResult)
  | takeOne (granted : Bool)
  deriving DecidableEq, Repr

inductive Event
  | started (job : Job)
  | ended (job : Job) (success complete : Bool)
  | waitFailed
  | tokenTaken
  | tokenReturned
  deriving DecidableEq, Repr

/-- Jobs are run in the order of their names. -/
def sortJobs (jobs : List Job) : List Job := jobs.mergeSort fun a b => !decide (b.name < a.name)

/-- `run_all` up to its main loop. With more than one job a jobserver is asserted; without one and
without `-j` there is one job at a time. -/
def runAll (jobs : List Job) (numJobs : ℕ) (dryRun created : Bool) : Option (RunOptions × JobList) :=
  let jobserver := !dryRun && numJobs ≠ 1 && created
  if !dryRun && 1 < numJobs && !jobserver then none
  else
    let numJobs := if !jobserver && numJobs = 0 then 1 else numJobs
    some (⟨numJobs, dryRun, jobserver⟩, {
      waitingJobs := (sortJobs jobs).filter (!·.isAlreadyComplete)
      runnableJobs := [], runningJobs := [], completedJobs := []
      failed := false, nTokens := 0, forceWait := false, phase := .main })

variable (opts : RunOptions)

/-- `wait_one`: whether there was no failure. -/
def waitOne (block : Bool) (result : WaitResult) (s : JobList) :
    Option (Bool × JobList × List Event) :=
  match result with
  | .error => some (false, s, [.waitFailed])
  | .nothing => some (!block, s, if block then [.waitFailed] else [])
  | .ended index success complete =>
    match s.runningJobs.drop index with
    | [] => none
    | job :: rest => some (success && complete,
        { s with
          runningJobs := s.runningJobs.take index ++ rest
          completedJobs := if success then job.name :: s.completedJobs else s.completedJobs },
        [.ended job success complete])

/-- Tokens are returned down to one fewer than there are running jobs. -/
def returnTokens (running : ℕ) : ℕ → ℕ × List Event
  | 0 => (0, [])
  | n + 1 =>
    if running < 1 + (n + 1) then
      let (left, events) := returnTokens running n
      (left, .tokenReturned :: events)
    else (n + 1, [])

def releaseTokens (s : JobList) : JobList × List Event :=
  if opts.jobserver then
    let (left, events) := returnTokens s.runningJobs.length s.nTokens
    ({ s with nTokens := left }, events)
  else (s, [])

/-- All dependencies of the job are complete. -/
def isReady (completedJobs : List (List UInt8)) (job : Job) : Bool :=
  job.dependencies.all (· ∈ completedJobs) && job.isRunnable

/-- The update of the runnable list. -/
def updateRunnable (s : JobList) : JobList :=
  { s with
    runnableJobs := sortJobs (s.runnableJobs ++ s.waitingJobs.filter (isReady s.completedJobs))
    waitingJobs := s.waitingJobs.filter (!isReady s.completedJobs ·) }

/-- The job at the front is started; in a dry run it is complete at once. -/
def startJob (s : JobList) : Option (JobList × List Event) :=
  match s.runnableJobs with
  | [] => none
  | job :: rest =>
    if opts.dryRun then
      some ({ s with
        runnableJobs := rest, completedJobs := job.name :: s.completedJobs, phase := .main },
        [.started job, .ended job true true])
    else
      some ({ s with runnableJobs := rest, runningJobs := s.runningJobs ++ [job], phase := .main },
        [.started job])

/-- The main loop has to wait for a running job. -/
def mustWait (s : JobList) : Bool :=
  s.runningJobs ≠ [] && (s.forceWait || (0 < opts.numJobs && opts.numJobs ≤ s.runningJobs.length))

/-- One step of `run_all`. -/
def step (s : JobList) (choice : Choice) : Option (JobList × List Event) :=
  match s.phase, choice with
  | .main, .none =>
    if s.waitingJobs = [] ∧ s.runnableJobs = [] ∧ s.runningJobs = [] then
      some ({ s with phase := .drain }, [])
    else if opts.dryRun then some ({ s with phase := .schedule }, [])
    else some ({ s with phase := .wait }, [])
  | .wait, .none =>
    if mustWait opts s then none
    else
      let (s, events) := releaseTokens opts s
      some ({ s with phase := .schedule }, events)
  | .wait, .waitOne result =>
    if mustWait opts s then do
      let (ok, s, events) ← waitOne true result s
      if ok then some ({ s with forceWait := false }, events)
      else some ({ s with failed := true, phase := .drain }, events)
    else none
  | .schedule, .none =>
    let s := updateRunnable s
    if s.runnableJobs = [] then
      if s.runningJobs = [] then some ({ s with phase := .drain }, [])
      else some ({ s with forceWait := true, phase := .main }, [])
    else if s.runningJobs ≠ [] ∧ opts.jobserver then some ({ s with phase := .token }, [])
    else some ({ s with phase := .start }, [])
  | .token, .takeOne granted =>
    if granted then some ({ s with nTokens := s.nTokens + 1, phase := .start }, [.tokenTaken])
    else some ({ s with phase := .poll }, [])
  | .poll, .waitOne result => do
    let (ok, s, events) ← waitOne false result s
    if ok then some ({ s with phase := .main }, events)
    else some ({ s with failed := true, phase := .drain }, events)
  | .start, .none => startJob opts s
  | .drain, .none =>
    if s.runningJobs = [] then
      let (s, events) := releaseTokens opts s
      some ({ s with phase := .done }, events)
    else none
  | .drain, .waitOne result =>
    if s.runningJobs = [] then none
    else do
      let (ok, s, events) ← waitOne true result s
      some ({ s with failed := s.failed || !ok }, events)
  | _, _ => none

/-- A step, whatever the choice. -/
def Step (s : JobList) (events : List Event) (s' : JobList) : Prop :=
  ∃ choice, step opts s choice = some (s', events)

/-- What `run_all` returns in the end. -/
def result (s : JobList) : Option Bool := if s.phase = .done then some (!s.failed) else none

end Mrustc.Minicargo
