import Mrustc.Minicargo.Jobs
import Mrustc.Trace.Run

/-! # The runs of the job list are safe

What every step of `run_all` can do, and what it therefore keeps: the accounts of the jobs and of the
tokens, and the order in which jobs start.
-/

namespace Mrustc.Minicargo
open Trace

section Transitions

/-- What `wait_one` does. -/
inductive Waited (s : JobList) : Bool → JobList → List Event → Prop
  | nothing : Waited s true s []
  | error : Waited s false s [.waitFailed]
  | ended {before after job} (success complete : Bool) (h : s.runningJobs = before ++ job :: after) :
      Waited s (success && complete)
        { s with
          runningJobs := before ++ after
          completedJobs := if success then job.name :: s.completedJobs else s.completedJobs }
        [.ended job success complete]

/-- What each step does. -/
inductive Transition (opts : RunOptions) (s : JobList) : List Event → JobList → Prop
  | leave (hp : s.phase = .main) (hw : s.waitingJobs = []) (hr : s.runnableJobs = [])
      (hn : s.runningJobs = []) : Transition opts s [] { s with phase := .drain }
  | dry (hp : s.phase = .main) (hd : opts.dryRun = true) :
      Transition opts s [] { s with phase := .schedule }
  | enter (hp : s.phase = .main) (hd : opts.dryRun = false) :
      Transition opts s [] { s with phase := .wait }
  | release (hp : s.phase = .wait) (hw : mustWait opts s = false) :
      Transition opts s (releaseTokens opts s).2 { (releaseTokens opts s).1 with phase := .schedule }
  | wait {es s'} (hp : s.phase = .wait) (h : Waited s true s' es) :
      Transition opts s es { s' with forceWait := false }
  | waitFail {es s'} (hp : s.phase = .wait ∨ s.phase = .poll) (h : Waited s false s' es) :
      Transition opts s es { s' with failed := true, phase := .drain }
  | stuck (hp : s.phase = .schedule) (h : (updateRunnable s).runnableJobs = [])
      (hn : s.runningJobs = []) : Transition opts s [] { updateRunnable s with phase := .drain }
  | force (hp : s.phase = .schedule) (h : (updateRunnable s).runnableJobs = [])
      (hn : s.runningJobs ≠ []) :
      Transition opts s [] { updateRunnable s with forceWait := true, phase := .main }
  | request (hp : s.phase = .schedule) (h : (updateRunnable s).runnableJobs ≠ [])
      (hj : opts.jobserver = true) : Transition opts s [] { updateRunnable s with phase := .token }
  | ready (hp : s.phase = .schedule) (h : (updateRunnable s).runnableJobs ≠ [])
      (hn : s.runningJobs = [] ∨ opts.jobserver = false) :
      Transition opts s [] { updateRunnable s with phase := .start }
  | take (hp : s.phase = .token) :
      Transition opts s [.tokenTaken] { s with nTokens := s.nTokens + 1, phase := .start }
  | refuse (hp : s.phase = .token) : Transition opts s [] { s with phase := .poll }
  | poll {es s'} (hp : s.phase = .poll) (h : Waited s true s' es) :
      Transition opts s es { s' with phase := .main }
  | startDry {job rest} (hp : s.phase = .start) (h : s.runnableJobs = job :: rest)
      (hd : opts.dryRun = true) : Transition opts s [.started job, .ended job true true]
        { s with runnableJobs := rest, completedJobs := job.name :: s.completedJobs, phase := .main }
  | start {job rest} (hp : s.phase = .start) (h : s.runnableJobs = job :: rest)
      (hd : opts.dryRun = false) : Transition opts s [.started job]
        { s with runnableJobs := rest, runningJobs := s.runningJobs ++ [job], phase := .main }
  | finish (hp : s.phase = .drain) (hn : s.runningJobs = []) :
      Transition opts s (releaseTokens opts s).2 { (releaseTokens opts s).1 with phase := .done }
  | drain {es s' ok} (hp : s.phase = .drain) (h : Waited s ok s' es) :
      Transition opts s es { s' with failed := s'.failed || !ok }

variable {opts : RunOptions} {s s' : JobList} {es es' : List Event} {needed : List Job}

theorem waitOne_waited {block ok : Bool} {r : WaitResult} (h : waitOne block r s = some (ok, s', es)) :
    Waited s ok s' es := by
  cases r with
  | error =>
    cases h
    exact .error
  | nothing =>
    cases block <;> cases h
    · exact .nothing
    · exact .error
  | ended index success complete =>
    rw [waitOne] at h
    split at h
    · cases h
    · rename_i job rest hdrop
      cases h
      refine .ended success complete ?_
      rw [← hdrop, List.take_append_drop]

theorem Waited.failed {ok : Bool} (h : Waited s ok s' es) : s'.failed = s.failed := by
  cases h <;> rfl

theorem Waited.phase {ok : Bool} (h : Waited s ok s' es) : s'.phase = s.phase := by
  cases h <;> rfl

theorem Step.transition (h : Step opts s es s') : Transition opts s es s' := by
  obtain ⟨choice, h⟩ := h
  unfold step at h
  split at h
  case h_1 hp =>
    split_ifs at h with h₁ h₂ <;> cases h
    · exact .leave hp h₁.1 h₁.2.1 h₁.2.2
    · exact .dry hp h₂
    · exact .enter hp (Bool.not_eq_true _ ▸ h₂)
  case h_2 hp =>
    split_ifs at h with h₁
    cases h
    exact .release hp (Bool.not_eq_true _ ▸ h₁)
  case h_3 hp =>
    split_ifs at h with h₁
    obtain ⟨⟨ok, s₁, es₁⟩, hw, h⟩ := Option.bind_eq_some_iff.mp h
    cases ok <;> cases h
    · exact .waitFail (.inl hp) (waitOne_waited hw)
    · exact .wait hp (waitOne_waited hw)
  case h_4 hp =>
    dsimp only at h
    split_ifs at h with h₁ h₂ h₃ <;> cases h
    · exact .stuck hp h₁ h₂
    · exact .force hp h₁ h₂
    · exact .request hp h₁ h₃.2
    · refine .ready hp h₁ ?_
      simp only [not_and_or, Decidable.not_not, Bool.not_eq_true] at h₃
      exact h₃
  case h_5 hp =>
    split_ifs at h <;> cases h
    · exact .take hp
    · exact .refuse hp
  case h_6 hp =>
    obtain ⟨⟨ok, s₁, es₁⟩, hw, h⟩ := Option.bind_eq_some_iff.mp h
    cases ok <;> cases h
    · exact .waitFail (.inr hp) (waitOne_waited hw)
    · exact .poll hp (waitOne_waited hw)
  case h_7 hp =>
    rw [startJob] at h
    split at h
    · cases h
    · rename_i hr
      split_ifs at h with hd <;> cases h
      · exact .startDry hp hr hd
      · exact .start hp hr (Bool.not_eq_true _ ▸ hd)
  case h_8 hp =>
    split_ifs at h with h₁
    cases h
    exact .finish hp h₁
  case h_9 hp =>
    split_ifs at h with h₁
    obtain ⟨⟨ok, s₁, es₁⟩, hw, h⟩ := Option.bind_eq_some_iff.mp h
    cases h
    exact .drain hp (waitOne_waited hw)
  case h_10 => cases h

end Transitions

section Accounts

def startedJobs (es : List Event) : List Job :=
  es.filterMap fun | .started job => some job | _ => none

def endedJobs (es : List Event) : List Job :=
  es.filterMap fun | .ended job _ _ => some job | _ => none

def Event.isFailure : Event → Bool
  | .ended _ success complete => !(success && complete)
  | .waitFailed => true
  | _ => false

/-- Each job that needs running is started, runnable or waiting, each started one ended or running,
and the completed ones are those that ended well. -/
structure Accounts (needed : List Job) (es : List Event) (s : JobList) : Prop where
  jobs : (startedJobs es ++ (s.runnableJobs ++ s.waitingJobs)).Perm needed
  alive : (startedJobs es).Perm (endedJobs es ++ s.runningJobs)
  completed (name : List UInt8) : name ∈ s.completedJobs ↔
    ∃ job complete, .ended job true complete ∈ es ∧ job.name = name
  failed : s.failed = es.any Event.isFailure
  draining : s.failed = true → s.phase = .drain ∨ s.phase = .done
  runnable (job : Job) (h : job ∈ s.runnableJobs) : isReady s.completedJobs job = true

theorem startedJobs_append : startedJobs (es ++ es') = startedJobs es ++ startedJobs es' :=
  List.filterMap_append

theorem endedJobs_append : endedJobs (es ++ es') = endedJobs es ++ endedJobs es' :=
  List.filterMap_append

theorem isReady_cons {names : List (List UInt8)} {job : Job} (name : List UInt8)
    (h : isReady names job = true) : isReady (name :: names) job = true := by
  simp only [isReady, Bool.and_eq_true, List.all_eq_true, decide_eq_true_eq] at h ⊢
  exact ⟨fun d hd => List.mem_cons_of_mem _ (h.1 d hd), h.2⟩

theorem sortJobs_perm (jobs : List Job) : (sortJobs jobs).Perm jobs := List.mergeSort_perm _ _

theorem updateRunnable_perm (s : JobList) :
    ((updateRunnable s).runnableJobs ++ (updateRunnable s).waitingJobs).Perm
      (s.runnableJobs ++ s.waitingJobs) := by
  have hsort := sortJobs_perm (s.runnableJobs ++ s.waitingJobs.filter (isReady s.completedJobs))
  refine (hsort.append_right _).trans ?_
  rw [List.append_assoc]
  exact (List.filter_append_perm _ _).append_left _

/-- Tokens are returned without anything else happening. -/
theorem returnTokens_events (running n : ℕ) :
    ∃ k, (returnTokens running n).2 = List.replicate k .tokenReturned ∧
      (returnTokens running n).1 + k = n := by
  induction n with
  | zero => exact ⟨0, rfl, rfl⟩
  | succ n ih =>
    obtain ⟨k, hevents, hleft⟩ := ih
    rw [returnTokens]
    split
    · refine ⟨k + 1, ?_, ?_⟩
      · simp only [hevents, List.replicate_succ]
      · simp only
        omega
    · exact ⟨0, rfl, rfl⟩

/-- What a release of tokens leaves alone, and the events of it. -/
theorem releaseTokens_spec (opts : RunOptions) (s : JobList) :
    ∃ k, (releaseTokens opts s).2 = List.replicate k .tokenReturned ∧
      (releaseTokens opts s).1 = { s with nTokens := (releaseTokens opts s).1.nTokens } ∧
      (releaseTokens opts s).1.nTokens + k = s.nTokens := by
  rw [releaseTokens]
  split
  · obtain ⟨k, hevents, hleft⟩ := returnTokens_events s.runningJobs.length s.nTokens
    exact ⟨k, hevents, rfl, hleft⟩
  · exact ⟨0, rfl, rfl, rfl⟩

/-- The accounts follow what a step adds to them. -/
theorem Accounts.append (h : Accounts needed es s)
    (hjobs : (startedJobs es' ++ (s'.runnableJobs ++ s'.waitingJobs)).Perm
      (s.runnableJobs ++ s.waitingJobs))
    (halive : (startedJobs es' ++ s.runningJobs).Perm (endedJobs es' ++ s'.runningJobs))
    (hcompleted : ∀ name, name ∈ s'.completedJobs ↔ name ∈ s.completedJobs ∨
      ∃ job complete, .ended job true complete ∈ es' ∧ job.name = name)
    (hfailed : s'.failed = (s.failed || es'.any Event.isFailure))
    (hdraining : s'.failed = true → s'.phase = .drain ∨ s'.phase = .done)
    (hrunnable : ∀ job ∈ s'.runnableJobs, isReady s'.completedJobs job = true) :
    Accounts needed (es ++ es') s' where
  jobs := by
    rw [startedJobs_append, List.append_assoc]
    exact (hjobs.append_left _).trans h.jobs
  alive := by
    rw [startedJobs_append, endedJobs_append]
    calc (startedJobs es ++ startedJobs es').Perm (startedJobs es' ++ startedJobs es) := List.perm_append_comm
      (startedJobs es' ++ startedJobs es).Perm (startedJobs es' ++ (endedJobs es ++ s.runningJobs)) :=
        h.alive.append_left _
      (startedJobs es' ++ (endedJobs es ++ s.runningJobs)).Perm
          (endedJobs es ++ (startedJobs es' ++ s.runningJobs)) := by
        simpa using List.perm_append_comm_assoc _ _ _
      (endedJobs es ++ (startedJobs es' ++ s.runningJobs)).Perm
          (endedJobs es ++ (endedJobs es' ++ s'.runningJobs)) := halive.append_left _
      (endedJobs es ++ (endedJobs es' ++ s'.runningJobs)).Perm
          (endedJobs es ++ endedJobs es' ++ s'.runningJobs) := by rw [List.append_assoc]
  completed name := by
    rw [hcompleted, h.completed]
    constructor
    · rintro (⟨job, complete, hmem, hname⟩ | ⟨job, complete, hmem, hname⟩)
      · exact ⟨job, complete, List.mem_append_left _ hmem, hname⟩
      · exact ⟨job, complete, List.mem_append_right _ hmem, hname⟩
    · rintro ⟨job, complete, hmem, hname⟩
      obtain hmem | hmem := List.mem_append.mp hmem
      · exact .inl ⟨job, complete, hmem, hname⟩
      · exact .inr ⟨job, complete, hmem, hname⟩
  failed := by rw [hfailed, h.failed, List.any_append]
  draining := hdraining
  runnable := hrunnable

/-- A step that only moves tokens and the place in the loops. -/
theorem Accounts.quiet (h : Accounts needed es s) {n : ℕ} {w : Bool} {p : Phase}
    (he : ∀ e ∈ es', e = .tokenTaken ∨ e = .tokenReturned)
    (hp : s.failed = true → p = .drain ∨ p = .done) :
    Accounts needed (es ++ es') { s with nTokens := n, forceWait := w, phase := p } := by
  have hstarted : startedJobs es' = [] := by
    refine List.filterMap_eq_nil_iff.mpr fun e hmem => ?_
    obtain rfl | rfl := he e hmem <;> rfl
  have hended : endedJobs es' = [] := by
    refine List.filterMap_eq_nil_iff.mpr fun e hmem => ?_
    obtain rfl | rfl := he e hmem <;> rfl
  have hany : es'.any Event.isFailure = false := by
    refine List.any_eq_false.mpr fun e hmem => ?_
    obtain rfl | rfl := he e hmem <;> simp [Event.isFailure]
  refine h.append ?_ ?_ ?_ ?_ hp h.runnable
  · rw [hstarted]
    exact .refl _
  · rw [hstarted, hended]
  · intro name
    refine (or_iff_left ?_).symm
    rintro ⟨job, complete, hmem, -⟩
    obtain he | he := he _ hmem <;> cases he
  · rw [hany, Bool.or_false]

theorem Accounts.update (h : Accounts needed es s) :
    Accounts needed es (updateRunnable s) := by
  rw [← List.append_nil es]
  refine h.append (updateRunnable_perm s) (.refl _) (by simp [updateRunnable]) (by simp [updateRunnable])
    h.draining ?_
  intro job hjob
  obtain hold | hnew := List.mem_append.mp ((sortJobs_perm _).mem_iff.mp hjob)
  · exact h.runnable job hold
  · exact (List.mem_filter.mp hnew).2

/-- What ended is booked, with a failure leading out of the main loop. -/
theorem Accounts.waited {ok w : Bool} {p : Phase} {f : Bool} (h : Accounts needed es s)
    (hw : Waited s ok s' es') (hf : f = (s.failed || !ok))
    (hp : f = true → p = .drain ∨ p = .done) :
    Accounts needed (es ++ es') { s' with failed := f, forceWait := w, phase := p } := by
  cases hw with
  | nothing =>
    refine h.append (.refl _) (.refl _) (by simp) ?_ hp h.runnable
    simpa using hf
  | error =>
    refine h.append (.refl _) (.refl _) (by simp) ?_ hp h.runnable
    simpa [Event.isFailure] using hf
  | @ended before after job success complete hrunning =>
    refine h.append (.refl _) ?_ ?_ ?_ hp ?_
    · rw [hrunning]
      exact List.perm_middle
    · intro name
      cases success <;> simp [eq_comm, or_comm]
    · simpa [Event.isFailure] using hf
    · intro job' hjob'
      have := h.runnable job' hjob'
      cases success with
      | true => exact isReady_cons _ this
      | false => exact this

theorem Accounts.transition (h : Accounts needed es s) (ht : Transition opts s es' s') :
    Accounts needed (es ++ es') s' := by
  have hrun (hp : s.phase ≠ .drain) (hp' : s.phase ≠ .done) : s.failed = false := by
    cases hf : s.failed with
    | false => rfl
    | true => exact absurd (h.draining hf) (by simp [hp, hp'])
  have hfailed (hp : s.phase ≠ .drain) (hp' : s.phase ≠ .done) {q : Prop} : s.failed = true → q := by
    rw [hrun hp hp']
    exact fun hf => by cases hf
  cases ht with
  | leave hp _ _ _ => exact h.quiet (by simp) fun _ => .inl rfl
  | dry hp _ => exact h.quiet (by simp) (hfailed (by simp [hp]) (by simp [hp]))
  | enter hp _ => exact h.quiet (by simp) (hfailed (by simp [hp]) (by simp [hp]))
  | release hp _ =>
    obtain ⟨k, hevents, hstate, -⟩ := releaseTokens_spec opts s
    rw [hevents, hstate]
    refine h.quiet (fun e he => .inr (List.eq_of_mem_replicate he)) ?_
    exact hfailed (by simp [hp]) (by simp [hp])
  | wait hp hw =>
    have hf : _ = false := hw.failed.trans (hrun (by simp [hp]) (by simp [hp]))
    exact h.waited (p := _) hw (by simp [hw.failed]) fun hf' => absurd (hf' ▸ hf) (by simp)
  | waitFail hp hw =>
    exact h.waited hw (by simp) fun _ => .inl rfl
  | stuck hp _ _ => exact h.update.quiet (by simp) fun _ => .inl rfl
  | force hp _ _ => exact h.update.quiet (by simp) (hfailed (by simp [hp]) (by simp [hp]))
  | request hp _ _ => exact h.update.quiet (by simp) (hfailed (by simp [hp]) (by simp [hp]))
  | ready hp _ _ => exact h.update.quiet (by simp) (hfailed (by simp [hp]) (by simp [hp]))
  | take hp => exact h.quiet (by simp) (hfailed (by simp [hp]) (by simp [hp]))
  | refuse hp => exact h.quiet (by simp) (hfailed (by simp [hp]) (by simp [hp]))
  | poll hp hw =>
    have hf : _ = false := hw.failed.trans (hrun (by simp [hp]) (by simp [hp]))
    exact h.waited hw (by simp [hw.failed]) fun hf' => absurd (hf' ▸ hf) (by simp)
  | @startDry job rest hp hr _ =>
    have hf := hrun (by simp [hp]) (by simp [hp])
    refine h.append ?_ (.refl _) ?_ ?_ ?_ ?_
    · simp [startedJobs, hr]
    · intro name
      simp [eq_comm, or_comm]
    · simp [Event.isFailure]
    · simp [hf]
    · intro job' hjob'
      exact isReady_cons _ (h.runnable job' (by simp [hr, hjob']))
  | @start job rest hp hr _ =>
    have hf := hrun (by simp [hp]) (by simp [hp])
    refine h.append ?_ ?_ ?_ ?_ ?_ ?_
    · simp [startedJobs, hr]
    · exact List.perm_append_comm
    · simp
    · simp [Event.isFailure]
    · simp [hf]
    · intro job' hjob'
      exact h.runnable job' (by simp [hr, hjob'])
  | finish hp _ =>
    obtain ⟨k, hevents, hstate, -⟩ := releaseTokens_spec opts s
    rw [hevents, hstate]
    exact h.quiet (fun e he => .inr (List.eq_of_mem_replicate he)) fun _ => .inr rfl
  | drain hp hw => exact h.waited hw (by rw [hw.failed]) fun _ => .inl (hw.phase.trans hp)

end Accounts

section Limits

/-- Without a jobserver one job runs at a time, and in a dry run none. -/
structure RunOptions.Valid (opts : RunOptions) : Prop where
  single : opts.dryRun = false → opts.jobserver = false → opts.numJobs = 1
  dry : opts.dryRun = true → opts.jobserver = false

/-- Behind the loop that waits there is room for one more job. -/
def Phase.hasRoom : Phase → Bool
  | .schedule | .token | .poll | .start => true
  | _ => false

structure Limits (opts : RunOptions) (es : List Event) (s : JobList) : Prop where
  tokens : es.count .tokenTaken = es.count .tokenReturned + s.nTokens
  noServer : opts.jobserver = false → s.nTokens = 0
  server : s.phase = .token → opts.jobserver = true
  bound : s.runningJobs.length ≤ s.nTokens + 1
  jobs : 0 < opts.numJobs → s.runningJobs.length ≤ opts.numJobs
  room : s.phase.hasRoom = true → 0 < opts.numJobs → s.runningJobs.length < opts.numJobs
  start : s.phase = .start → s.runningJobs.length ≤ s.nTokens
  dry : opts.dryRun = true → s.runningJobs = []
  done : s.phase = .done → s.nTokens = 0 ∧ s.runningJobs = []

theorem returnTokens_bound (running n : ℕ) (h : running ≤ n + 1) :
    running ≤ (returnTokens running n).1 + 1 := by
  induction n with
  | zero => exact h
  | succ n ih =>
    rw [returnTokens]
    split
    · exact ih (by omega)
    · exact h

theorem returnTokens_zero (n : ℕ) : (returnTokens 0 n).1 = 0 := by
  induction n with
  | zero => rfl
  | succ n ih =>
    rw [returnTokens, if_pos (by omega)]
    exact ih

theorem releaseTokens_bound (h : s.runningJobs.length ≤ s.nTokens + 1) :
    s.runningJobs.length ≤ (releaseTokens opts s).1.nTokens + 1 := by
  rw [releaseTokens]
  split
  · exact returnTokens_bound _ _ h
  · exact h

/-- A release keeps the books: the tokens that are left are those not returned. -/
theorem Limits.release (h : Limits opts es s) {p : Phase} (hp : p ≠ .start) (hp' : p ≠ .token)
    (hroom : p.hasRoom = true → 0 < opts.numJobs → s.runningJobs.length < opts.numJobs)
    (hdone : p = .done → s.runningJobs = []) :
    Limits opts (es ++ (releaseTokens opts s).2) { (releaseTokens opts s).1 with phase := p } := by
  obtain ⟨k, hevents, hstate, hleft⟩ := releaseTokens_spec opts s
  have hbound : s.runningJobs.length ≤ (releaseTokens opts s).1.nTokens + 1 :=
    releaseTokens_bound h.bound
  have hzero : s.runningJobs = [] → (releaseTokens opts s).1.nTokens = 0 := by
    intro hn
    cases hj : opts.jobserver with
    | true => simp [releaseTokens, hj, hn, returnTokens_zero]
    | false => simp [releaseTokens, hj, h.noServer hj]
  have htokens := h.tokens
  rw [hstate] at hbound ⊢
  rw [hevents]
  exact {
    tokens := by
      simp only [List.count_append, List.count_replicate]
      simp
      omega
    noServer := fun hj => by
      have := h.noServer hj
      simp only
      omega
    server := fun he => absurd he hp'
    bound := hbound
    jobs := h.jobs
    room := hroom
    start := fun he => absurd he hp
    dry := h.dry
    done := fun he => ⟨hzero (hdone he), hdone he⟩ }

/-- What ended makes room. -/
theorem Limits.waited {ok f w : Bool} {p : Phase} (h : Limits opts es s) (hw : Waited s ok s' es')
    (hstart : p.hasRoom = false) (hdone : p ≠ .done) :
    Limits opts (es ++ es') { s' with failed := f, forceWait := w, phase := p } := by
  have hlen : s'.runningJobs.length ≤ s.runningJobs.length ∧
      (s.runningJobs = [] → s'.runningJobs = []) ∧ s'.nTokens = s.nTokens ∧
      es'.count .tokenTaken = 0 ∧ es'.count .tokenReturned = 0 := by
    cases hw with
    | nothing => simp
    | error => simp
    | ended success complete hrunning => simp [hrunning]
  obtain ⟨hlen, hnil, htokens, htaken, hreturned⟩ := hlen
  have h₁ := h.tokens
  have h₂ := h.bound
  exact {
    tokens := by
      simp only [List.count_append]
      omega
    noServer := fun hj => htokens.trans (h.noServer hj)
    server := fun he => by
      simp only at he
      simp [he, Phase.hasRoom] at hstart
    bound := by
      simp only
      omega
    jobs := fun hn => hlen.trans (h.jobs hn)
    room := fun he => by simp [hstart] at he
    start := fun he => by
      simp only at he
      simp [he, Phase.hasRoom] at hstart
    dry := fun hd => hnil (h.dry hd)
    done := fun he => absurd he hdone }

/-- A step that starts nothing and takes no token. -/
theorem Limits.move (h : Limits opts es s) (htokens : s'.nTokens = s.nTokens)
    (hrunning : s'.runningJobs = s.runningJobs)
    (hroom : s'.phase.hasRoom = true → 0 < opts.numJobs → s.runningJobs.length < opts.numJobs)
    (hserver : s'.phase = .token → opts.jobserver = true)
    (hstart : s'.phase = .start → s.runningJobs.length ≤ s.nTokens) (hdone : s'.phase ≠ .done) :
    Limits opts (es ++ []) s' := by
  rw [List.append_nil]
  exact {
    tokens := htokens ▸ h.tokens
    noServer := htokens ▸ h.noServer
    server := hserver
    bound := htokens ▸ hrunning ▸ h.bound
    jobs := hrunning ▸ h.jobs
    room := hrunning ▸ hroom
    start := htokens ▸ hrunning ▸ hstart
    dry := hrunning ▸ h.dry
    done := fun he => absurd he hdone }

/-- Without running jobs the implicit token is free, and without a jobserver nothing runs here. -/
theorem Limits.ready (hopts : opts.Valid) (h : Limits opts es s) (hp : s.phase.hasRoom = true)
    (hn : s.runningJobs = [] ∨ opts.jobserver = false) : s.runningJobs = [] := by
  obtain hn | hj := hn
  · exact hn
  · cases hd : opts.dryRun with
    | true => exact h.dry hd
    | false =>
      have hone := hopts.single hd hj
      have hroom := h.room hp (by omega)
      exact List.length_eq_zero_iff.mp (by omega)

theorem Limits.transition (hopts : opts.Valid) (h : Limits opts es s) (ht : Transition opts s es' s') :
    Limits opts (es ++ es') s' := by
  cases ht with
  | leave hp _ _ _ => exact h.move rfl rfl (by simp [Phase.hasRoom]) (by simp) (by simp) (by simp)
  | dry hp hd =>
    refine h.move rfl rfl (fun _ hpos => ?_) (by simp) (by simp) (by simp)
    rwa [h.dry hd]
  | enter hp _ => exact h.move rfl rfl (by simp [Phase.hasRoom]) (by simp) (by simp) (by simp)
  | release hp hw =>
    refine h.release (by simp) (by simp) (fun _ hpos => ?_) (by simp)
    by_contra hlen
    have hne : s.runningJobs ≠ [] := fun hn => by simp [hn] at hlen; omega
    simp [mustWait, hne, hpos, not_lt.mp hlen] at hw
  | wait hp hw =>
    have hphase := hw.phase.trans hp
    exact h.waited (p := _) hw (by simp [hphase, Phase.hasRoom]) (by simp [hphase])
  | waitFail hp hw => exact h.waited hw rfl (by simp)
  | stuck hp _ _ => exact h.move rfl rfl (by simp [Phase.hasRoom]) (by simp) (by simp) (by simp)
  | force hp _ _ => exact h.move rfl rfl (by simp [Phase.hasRoom]) (by simp) (by simp) (by simp)
  | request hp _ hj =>
    exact h.move rfl rfl (fun _ => h.room (by simp [hp, Phase.hasRoom])) (fun _ => hj) (by simp) (by simp)
  | ready hp _ hn =>
    have hroom : s.phase.hasRoom = true := by simp [hp, Phase.hasRoom]
    refine h.move rfl rfl (fun _ => h.room hroom) (by simp) (fun _ => ?_) (by simp)
    rw [h.ready hopts hroom hn]
    exact Nat.zero_le _
  | take hp =>
    have hroom := h.room (by simp [hp, Phase.hasRoom])
    have htokens := h.tokens
    have hbound := h.bound
    exact {
      tokens := by simp; omega
      noServer := fun hj => absurd (h.server hp) (by simp [hj])
      server := by simp
      bound := by simp only; omega
      jobs := h.jobs
      room := fun _ => hroom
      start := fun _ => hbound
      dry := h.dry
      done := by simp }
  | refuse hp =>
    exact h.move rfl rfl (fun _ => h.room (by simp [hp, Phase.hasRoom])) (by simp) (by simp) (by simp)
  | poll hp hw => exact h.waited (w := _) (f := _) hw rfl (by simp)
  | startDry hp hr hd =>
    have hn := h.dry hd
    have htokens := h.tokens
    exact {
      tokens := by simp; omega
      noServer := h.noServer
      server := by simp
      bound := h.bound
      jobs := h.jobs
      room := by simp [Phase.hasRoom]
      start := by simp
      dry := h.dry
      done := by simp }
  | start hp hr hd =>
    have hroom := h.room (by simp [hp, Phase.hasRoom])
    have htokens := h.tokens
    have hstart := h.start hp
    exact {
      tokens := by simp; omega
      noServer := h.noServer
      server := by simp
      bound := by simp; omega
      jobs := fun hpos => by have := hroom hpos; simp; omega
      room := by simp [Phase.hasRoom]
      start := by simp
      dry := by simp [hd]
      done := by simp }
  | finish hp hn => exact h.release (by simp) (by simp) (by simp [Phase.hasRoom]) fun _ => hn
  | drain hp hw =>
    have hphase := hw.phase.trans hp
    exact h.waited (p := _) (w := _) hw (by simp [hphase, Phase.hasRoom]) (by simp [hphase])

end Limits

end Mrustc.Minicargo
