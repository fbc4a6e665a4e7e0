import Mrustc.Minicargo.JobsSafety

/-! # What `run_all` promises, and when

Jobs start once, in the order of their dependencies and within the limits, and nothing starts after a
failure. That all jobs were run when `run_all` returns true asks for an order of the jobs in which
each depends on earlier ones only.
-/

namespace Mrustc.Minicargo
open Trace

/-- The jobs that need running. -/
def neededJobs (jobs : List Job) : List Job := jobs.filter (!·.isAlreadyComplete)

def succeededJobs (es : List Event) : List Job :=
  es.filterMap fun | .ended job true true => some job | _ => none

/-- A job starts after its dependencies and before any failure, and ends after it started. -/
structure InOrder (es : List Event) : Prop where
  started {pre job} (h : pre ++ [.started job] <+: es) : pre.any Event.isFailure = false ∧
    job.isRunnable = true ∧ ∀ name ∈ job.dependencies,
      ∃ job' complete, .ended job' true complete ∈ pre ∧ job'.name = name
  ended {pre job success complete} (h : pre ++ [.ended job success complete] <+: es) :
    job ∈ startedJobs pre

/-- What is promised of a run: `numJobs` is the argument of `-j`. -/
structure Safe (numJobs : ℕ) (needed : List Job) (es : List Event) (s : JobList) : Prop where
  startedOnce : (startedJobs es).Subperm needed
  running : (startedJobs es).Perm (endedJobs es ++ s.runningJobs)
  inOrder : InOrder es
  jobLimit : 0 < numJobs → s.runningJobs.length ≤ numJobs
  tokenLimit : s.runningJobs.length + es.count .tokenReturned ≤ es.count .tokenTaken + 1
  atEnd : (result s).isSome = true →
    es.count .tokenTaken = es.count .tokenReturned ∧ s.runningJobs = []
  success : result s = some true → s.waitingJobs = [] ∧ s.runnableJobs = [] ∧
    (startedJobs es).Perm needed ∧ (succeededJobs es).Perm needed

/-- Each job can be run when those before it are complete. -/
def Schedulable (needed : List Job) : Prop :=
  ∃ order : List Job, order.Perm needed ∧ ∀ pre job, pre ++ [job] <+: order →
    job.isRunnable = true ∧ ∀ name ∈ job.dependencies, ∃ job' ∈ pre, job'.name = name

variable {opts : RunOptions} {s s' : JobList} {es es' : List Event} {needed jobs : List Job}
variable {numJobs : ℕ} {dryRun created : Bool}

section Invariants

theorem prefix_append_cases {α : Type} {pre : List α} {a : α} {l l' : List α}
    (h : pre ++ [a] <+: l ++ l') : pre ++ [a] <+: l ∨ ∃ t, pre = l ++ t ∧ t ++ [a] <+: l' := by
  obtain ⟨t, ht⟩ := h
  obtain ⟨m, hm, -⟩ | ⟨m, hm, hm'⟩ := List.append_eq_append_iff.mp ht
  · exact .inl ⟨m, hm.symm⟩
  · rcases List.eq_nil_or_concat m with rfl | ⟨m, b, rfl⟩
    · rw [List.append_nil] at hm
      exact .inl ⟨[], by rw [List.append_nil, hm]⟩
    · rw [List.concat_eq_append, ← List.append_assoc] at hm
      obtain ⟨rfl, hb⟩ := List.append_inj' hm rfl
      cases hb
      rw [List.concat_eq_append] at hm'
      exact .inr ⟨m, rfl, t, hm'.symm⟩

theorem mem_of_isPrefix {α : Type} {pre l : List α} {a : α} (h : pre ++ [a] <+: l) : a ∈ l :=
  h.subset (List.mem_append_right _ (List.mem_singleton_self a))

theorem prefix_cons_cases {α : Type} {pre l : List α} {a b : α} (h : pre ++ [a] <+: b :: l) :
    pre = [] ∧ a = b ∨ ∃ t, pre = b :: t ∧ t ++ [a] <+: l := by
  cases pre with
  | nil => exact .inl ⟨rfl, (List.cons_prefix_cons.mp h).1⟩
  | cons c t =>
    obtain ⟨rfl, ht⟩ := List.cons_prefix_cons.mp h
    exact .inr ⟨t, rfl, ht⟩

theorem Waited.events {ok : Bool} (h : Waited s ok s' es) : es = [] ∨ es = [.waitFailed] ∨
    ∃ job ∈ s.runningJobs, ∃ success complete, es = [.ended job success complete] := by
  cases h with
  | nothing => exact .inl rfl
  | error => exact .inr (.inl rfl)
  | ended success complete h => exact .inr (.inr ⟨_, by simp [h], success, complete, rfl⟩)

theorem Waited.not_started {ok : Bool} (h : Waited s ok s' es) (job : Job) : .started job ∉ es := by
  obtain rfl | rfl | ⟨_, -, _, _, rfl⟩ := h.events <;> simp

theorem Waited.ended_running {ok : Bool} (h : Waited s ok s' es) {job : Job} {success complete : Bool}
    (hmem : .ended job success complete ∈ es) : job ∈ s.runningJobs := by
  obtain rfl | rfl | ⟨job', hjob', _, _, rfl⟩ := h.events
  · cases hmem
  · simp at hmem
  · cases List.mem_singleton.mp hmem
    exact hjob'

/-- A step starts a job only at its beginning, from the front of the runnable ones. -/
theorem Transition.started (ht : Transition opts s es' s') {pre : List Event} {job : Job}
    (h : pre ++ [.started job] <+: es') :
    pre = [] ∧ s.phase = .start ∧ ∃ rest, s.runnableJobs = job :: rest := by
  have hmem := mem_of_isPrefix h
  cases ht with
  | start hp hr _ =>
    obtain ⟨hpre, he⟩ | ⟨t, -, ht⟩ := prefix_cons_cases h
    · cases he
      exact ⟨hpre, hp, _, hr⟩
    · simp at ht
  | startDry hp hr _ =>
    obtain ⟨hpre, he⟩ | ⟨t, -, ht⟩ := prefix_cons_cases h
    · cases he
      exact ⟨hpre, hp, _, hr⟩
    · have := mem_of_isPrefix ht
      simp at this
  | release | finish =>
    obtain ⟨k, hevents, -⟩ := releaseTokens_spec opts s
    rw [hevents] at hmem
    cases List.eq_of_mem_replicate hmem
  | wait _ hw | waitFail _ hw | poll _ hw | drain _ hw => exact absurd hmem (hw.not_started job)
  | _ => simp at hmem

/-- A step ends a job that was running, or in a dry run one that it has just started. -/
theorem Transition.ended (ht : Transition opts s es' s') {pre : List Event} {job : Job}
    {success complete : Bool} (h : pre ++ [.ended job success complete] <+: es') :
    job ∈ s.runningJobs ∨ .started job ∈ pre := by
  have hmem := mem_of_isPrefix h
  cases ht with
  | startDry hp hr _ =>
    obtain ⟨-, he⟩ | ⟨t, hpre, ht⟩ := prefix_cons_cases h
    · cases he
    · cases List.mem_singleton.mp (mem_of_isPrefix ht)
      exact .inr (hpre ▸ List.mem_cons_self)
  | release | finish =>
    obtain ⟨k, hevents, -⟩ := releaseTokens_spec opts s
    rw [hevents] at hmem
    cases List.eq_of_mem_replicate hmem
  | wait _ hw | waitFail _ hw | poll _ hw | drain _ hw => exact .inl (hw.ended_running hmem)
  | _ => simp at hmem

theorem InOrder.append (h : InOrder es) (hs : Accounts needed es s) (ht : Transition opts s es' s') :
    InOrder (es ++ es') where
  started {pre job} hpre := by
    obtain hpre | ⟨t, rfl, htail⟩ := prefix_append_cases hpre
    · exact h.started hpre
    · obtain ⟨rfl, hphase, rest, hrest⟩ := ht.started htail
      have hready := hs.runnable job (by simp [hrest])
      simp only [isReady, Bool.and_eq_true, List.all_eq_true, decide_eq_true_eq] at hready
      rw [List.append_nil, ← hs.failed]
      refine ⟨?_, hready.2, fun name hname => ?_⟩
      · cases hf : s.failed with
        | false => rfl
        | true => exact absurd (hs.draining hf) (by simp [hphase])
      · obtain ⟨job', complete, hmem, hjob'⟩ := (hs.completed name).mp (hready.1 name hname)
        exact ⟨job', complete, hmem, hjob'⟩
  ended {pre job success complete} hpre := by
    obtain hpre | ⟨t, rfl, htail⟩ := prefix_append_cases hpre
    · exact h.ended hpre
    · rw [startedJobs_append]
      obtain hrunning | hstarted := ht.ended htail
      · exact List.mem_append_left _ (hs.alive.mem_iff.mpr (List.mem_append_right _ hrunning))
      · exact List.mem_append_right _ (List.mem_filterMap.mpr ⟨_, hstarted, rfl⟩)

/-- Behind the main loop without a failure nothing can be run any more. -/
def Quiescent (s : JobList) : Prop :=
  s.phase = .drain ∨ s.phase = .done → s.failed = false → s.runnableJobs = [] ∧ s.runningJobs = [] ∧
    ∀ job ∈ s.waitingJobs, isReady s.completedJobs job = false

theorem Waited.quiescent {ok : Bool} (h : Waited s ok s' es) (hq : Quiescent s) (hp : s.phase = .drain) :
    Quiescent { s' with failed := s'.failed || !ok } := by
  intro _ hf
  simp only [Bool.or_eq_false_iff, Bool.not_eq_false'] at hf
  obtain ⟨hrunnable, hrunning, hwaiting⟩ := hq (.inl hp) (h.failed ▸ hf.1)
  cases h with
  | nothing => exact ⟨hrunnable, hrunning, hwaiting⟩
  | error => simp at hf
  | ended _ _ h => simp [h] at hrunning

theorem Quiescent.transition (hq : Quiescent s) (ht : Transition opts s es' s') : Quiescent s' := by
  cases ht with
  | leave _ hw hr hn =>
    intro _ _
    exact ⟨hr, hn, by simp [hw]⟩
  | stuck _ h hn =>
    intro _ _
    refine ⟨h, hn, fun job hjob => ?_⟩
    have hready : (!isReady s.completedJobs job) = true := (List.mem_filter.mp hjob).2
    exact (Bool.not_eq_true' _).mp hready
  | waitFail =>
    intro _ hf
    cases hf
  | finish hp hn =>
    obtain ⟨k, -, hstate, -⟩ := releaseTokens_spec opts s
    rw [hstate]
    exact fun _ => hq (.inl hp)
  | drain hp hw => exact hw.quiescent hq hp
  | wait hp hw =>
    intro h
    simp [hw.phase.trans hp] at h
  | _ =>
    intro h
    simp at h

/-- All that is kept along a run. -/
structure Invariant (opts : RunOptions) (needed : List Job) (es : List Event) (s : JobList) : Prop where
  accounts : Accounts needed es s
  limits : Limits opts es s
  inOrder : InOrder es
  quiescent : Quiescent s

theorem Invariant.step (hopts : opts.Valid) (h : Invariant opts needed es s) (hs : Step opts s es' s') :
    Invariant opts needed (es ++ es') s' where
  accounts := h.accounts.transition hs.transition
  limits := h.limits.transition hopts hs.transition
  inOrder := h.inOrder.append h.accounts hs.transition
  quiescent := h.quiescent.transition hs.transition

/-- Before the main loop everything that needs running is waiting. -/
theorem invariant_init {waiting : List Job} (h : waiting.Perm needed) :
    Invariant opts needed [] ⟨waiting, [], [], [], false, 0, false, .main⟩ where
  accounts := {
    jobs := h
    alive := .refl _
    completed := by simp
    failed := rfl
    draining := by simp
    runnable := by simp }
  limits := {
    tokens := rfl
    noServer := fun _ => rfl
    server := by simp
    bound := Nat.zero_le _
    jobs := fun _ => Nat.zero_le _
    room := by simp [Phase.hasRoom]
    start := by simp
    dry := fun _ => rfl
    done := by simp }
  inOrder := {
    started := fun h => absurd (List.prefix_nil.mp h) (by simp)
    ended := fun h => absurd (List.prefix_nil.mp h) (by simp) }
  quiescent := by simp [Quiescent]

theorem runAll_spec (h : runAll jobs numJobs dryRun created = some (opts, s)) :
    opts.Valid ∧ (0 < numJobs → opts.numJobs = numJobs) ∧ ∃ waiting, waiting.Perm (neededJobs jobs) ∧
      s = ⟨waiting, [], [], [], false, 0, false, .main⟩ := by
  rw [runAll] at h
  generalize hj : (!dryRun && decide (numJobs ≠ 1) && created) = jobserver at h
  have hdry : dryRun = true → jobserver = false := by
    rintro rfl
    exact hj.symm
  simp only at h
  split_ifs at h with hassert hone
  · cases h
    simp only [Bool.and_eq_true, Bool.not_eq_true', decide_eq_true_eq] at hone
    exact ⟨⟨fun _ _ => rfl, hdry⟩, fun hpos => absurd hone.2 (by omega), _,
      (sortJobs_perm jobs).filter _, rfl⟩
  · cases h
    refine ⟨⟨fun hd hserver => ?_, hdry⟩, fun _ => rfl, _, (sortJobs_perm jobs).filter _, rfl⟩
    simp only at hd hserver
    simp only [hd, hserver, Bool.not_false, Bool.true_and, Bool.and_true,
      decide_eq_true_eq] at hassert hone
    change numJobs = 1
    omega

theorem run_invariant {s₀ : JobList} (h : runAll jobs numJobs dryRun created = some (opts, s₀))
    (hrun : Run (Step opts) s₀ es s) : Invariant opts (neededJobs jobs) es s := by
  obtain ⟨hopts, -, waiting, hw, rfl⟩ := runAll_spec h
  exact hrun.invariant (invariant_init hw) fun _ _ _ _ hI hs => hI.step hopts hs

end Invariants

section Success

/-- Without a failure all that ended ended well. -/
theorem succeededJobs_eq (h : es.any Event.isFailure = false) : succeededJobs es = endedJobs es := by
  induction es with
  | nil => rfl
  | cons e es ih =>
    rw [List.any_cons, Bool.or_eq_false_iff] at h
    cases e with
    | ended job success complete =>
      simp only [Event.isFailure, Bool.not_eq_false', Bool.and_eq_true] at h
      obtain ⟨⟨rfl, rfl⟩, hes⟩ := h
      exact congrArg (job :: ·) (ih hes)
    | _ => exact ih h.2

theorem exists_of_mem_succeededJobs {job : Job} (h : job ∈ succeededJobs es) :
    .ended job true true ∈ es := by
  obtain ⟨e, he, hjob⟩ := List.mem_filterMap.mp h
  split at hjob
  · cases hjob
    exact he
  · cases hjob

/-- Where the jobs can be ordered, what is left behind the main loop would have been ready. -/
theorem waitingJobs_eq_nil (hord : Schedulable needed) (ha : Accounts needed es s)
    (hq : s.runnableJobs = [] ∧ s.runningJobs = [] ∧
      ∀ job ∈ s.waitingJobs, isReady s.completedJobs job = false) (hf : s.failed = false) :
    s.waitingJobs = [] := by
  obtain ⟨order, hperm, horder⟩ := hord
  obtain ⟨hrunnable, hrunning, hwaiting⟩ := hq
  have hjobs : (succeededJobs es ++ s.waitingJobs).Perm order := by
    have hstarted := ha.alive
    rw [hrunning, List.append_nil, ← succeededJobs_eq (ha.failed ▸ hf)] at hstarted
    have := ha.jobs
    rw [hrunnable, List.nil_append] at this
    exact (hstarted.symm.append_right _).trans (this.trans hperm.symm)
  have hcomplete (job : Job) (h : job ∈ order) (hnot : job ∉ s.waitingJobs) :
      job.name ∈ s.completedJobs := by
    obtain h | h := List.mem_append.mp (hjobs.mem_iff.mpr h)
    · exact (ha.completed _).mpr ⟨job, true, exists_of_mem_succeededJobs h, rfl⟩
    · exact absurd h hnot
  have hnone : ∀ pre, pre <+: order → ∀ job ∈ pre, job ∉ s.waitingJobs := by
    intro pre
    induction pre using List.reverseRecOn with
    | nil => simp
    | append_singleton pre job ih =>
      intro hpre job' hjob'
      have hpre' := (List.prefix_append pre [job]).trans hpre
      obtain hjob' | hjob' := List.mem_append.mp hjob'
      · exact ih hpre' job' hjob'
      · cases List.mem_singleton.mp hjob'
        intro hmem
        obtain ⟨hrun, hdeps⟩ := horder pre _ hpre
        refine absurd (hwaiting _ hmem) ?_
        simp only [isReady, hrun, Bool.and_true, Bool.not_eq_false, List.all_eq_true, decide_eq_true_eq]
        intro name hname
        obtain ⟨dep, hdep, rfl⟩ := hdeps name hname
        exact hcomplete dep (hpre'.subset hdep) (ih hpre' dep hdep)
  refine List.eq_nil_iff_forall_not_mem.mpr fun job hjob => ?_
  exact hnone order (List.prefix_refl _) job (hjobs.subset (List.mem_append_right _ hjob)) hjob

theorem Invariant.safe (h : Invariant opts needed es s) (hn : 0 < numJobs → opts.numJobs = numJobs)
    (hord : Schedulable needed) : Safe numJobs needed es s where
  startedOnce := (List.sublist_append_left _ _).subperm.trans h.accounts.jobs.subperm
  running := h.accounts.alive
  inOrder := h.inOrder
  jobLimit hpos := hn hpos ▸ h.limits.jobs (hn hpos ▸ hpos)
  tokenLimit := by
    have htokens := h.limits.tokens
    have hbound := h.limits.bound
    omega
  atEnd hs := by
    have hp : s.phase = Phase.done := by
      by_contra hp
      simp [result, hp] at hs
    obtain ⟨hzero, hrunning⟩ := h.limits.done hp
    have htokens := h.limits.tokens
    exact ⟨by omega, hrunning⟩
  success hs := by
    have hp : s.phase = Phase.done := by
      by_contra hp
      simp [result, hp] at hs
    have hf : s.failed = false := by simpa [result, hp] using hs
    have hq := h.quiescent (.inr hp) hf
    have hwaiting := waitingJobs_eq_nil hord h.accounts hq hf
    have hstarted := h.accounts.jobs
    rw [hwaiting, hq.1, List.append_nil, List.append_nil] at hstarted
    have halive := h.accounts.alive
    rw [hq.2.1, List.append_nil, ← succeededJobs_eq (h.accounts.failed ▸ hf)] at halive
    exact ⟨hwaiting, hq.1, hstarted, halive.symm.trans hstarted⟩

end Success

section AllSucceed

/-- Where a run is in which every job succeeds and every token is granted. -/
structure Smooth (opts : RunOptions) (s : JobList) : Prop where
  failed : s.failed = false
  poll : s.phase ≠ .poll
  runnable : s.phase = .token ∨ s.phase = .start → s.runnableJobs ≠ []
  forceWait : s.forceWait = true → (s.phase = .main ∨ s.phase = .wait) ∧ s.runningJobs ≠ []
  dry : opts.dryRun = true → s.runningJobs = []
  drain : s.phase = .drain → s.runningJobs = []

/-- The place in the loops, counted backwards. -/
def rank (forceWait : Bool) : Phase → ℕ
  | .main => if forceWait then 2 else 7
  | .wait => if forceWait then 1 else 6
  | .schedule => 5
  | .token => 4
  | .start => 3
  | .poll => 2
  | .drain => 1
  | .done => 0

def remaining (s : JobList) : ℕ :=
  16 * (2 * (s.waitingJobs.length + s.runnableJobs.length) + s.runningJobs.length) +
    rank s.forceWait s.phase

section Rank

variable (s : JobList) (w : Bool)

theorem remaining_eq : remaining s =
    16 * (2 * (s.waitingJobs.length + s.runnableJobs.length) + s.runningJobs.length) + rank s.forceWait s.phase := rfl

theorem rank_main : rank w .main = if w then 2 else 7 := rfl

theorem rank_wait : rank w .wait = if w then 1 else 6 := rfl

theorem rank_schedule : rank w .schedule = 5 := rfl

theorem rank_token : rank w .token = 4 := rfl

theorem rank_start : rank w .start = 3 := rfl

theorem rank_drain : rank w .drain = 1 := rfl

theorem rank_done : rank w .done = 0 := rfl

end Rank

theorem updateRunnable_length (s : JobList) :
    (updateRunnable s).waitingJobs.length + (updateRunnable s).runnableJobs.length =
      s.waitingJobs.length + s.runnableJobs.length := by
  have := (updateRunnable_perm s).length_eq
  simp only [List.length_append] at this
  omega

theorem Smooth.main (h : Smooth opts s) (hp : s.phase = .main) :
    ∃ es s', Step opts s es s' ∧ Smooth opts s' ∧ remaining s' < remaining s := by
  by_cases hempty : s.waitingJobs = [] ∧ s.runnableJobs = [] ∧ s.runningJobs = []
  · refine ⟨[], { s with phase := .drain }, ⟨.none, by delta step; simp [hp, hempty]⟩, ?_, ?_⟩
    · exact {
        failed := h.failed
        poll := by simp
        runnable := by simp
        forceWait := fun hw => absurd hempty.2.2 (h.forceWait hw).2
        dry := h.dry
        drain := fun _ => hempty.2.2 }
    · simp only [remaining_eq, rank_main, rank_drain, hp]
      split <;> omega
  · cases hd : opts.dryRun with
    | true =>
      have hw : s.forceWait = false := by
        by_contra hw
        exact (h.forceWait (by simpa using hw)).2 (h.dry hd)
      refine ⟨[], { s with phase := .schedule }, ⟨.none, by delta step; simp [hp, hempty, hd]⟩, ?_, ?_⟩
      · exact {
          failed := h.failed
          poll := by simp
          runnable := by simp
          forceWait := by simp [hw]
          dry := h.dry
          drain := by simp }
      · simp [remaining_eq, rank_main, rank_schedule, hp, hw]
    | false =>
      refine ⟨[], { s with phase := .wait }, ⟨.none, by delta step; simp [hp, hempty, hd]⟩, ?_, ?_⟩
      · exact {
          failed := h.failed
          poll := by simp
          runnable := by simp
          forceWait := fun hw => ⟨.inr rfl, (h.forceWait hw).2⟩
          dry := h.dry
          drain := by simp }
      · simp only [remaining_eq, rank_main, rank_wait, hp]
        split <;> omega

theorem Smooth.wait (h : Smooth opts s) (hp : s.phase = .wait) :
    ∃ es s', Step opts s es s' ∧ Smooth opts s' ∧ remaining s' < remaining s := by
  cases hw : mustWait opts s with
  | true =>
    -- The job that was started first ends well.
    have hne : s.runningJobs ≠ [] := by
      intro hnil
      simp [mustWait, hnil] at hw
    obtain ⟨job, rest, hrunning⟩ := List.exists_cons_of_ne_nil hne
    refine ⟨[.ended job true true], { s with
      runningJobs := rest, completedJobs := job.name :: s.completedJobs, forceWait := false },
      ⟨.waitOne (.ended 0 true true), by delta step; simp [hp, hw, waitOne, hrunning]⟩, ?_, ?_⟩
    · exact {
        failed := h.failed
        poll := h.poll
        runnable := h.runnable
        forceWait := by simp
        dry := fun hd => absurd (h.dry hd) hne
        drain := by simp [hp] }
    · simp only [remaining_eq, rank_wait, hp, hrunning, List.length_cons, Bool.false_eq_true, if_false]
      split <;> omega
  | false =>
    obtain ⟨k, -, hstate, -⟩ := releaseTokens_spec opts s
    have hforce : s.forceWait = false := by
      by_contra hforce
      have hforce : s.forceWait = true := by simpa using hforce
      simp [mustWait, hforce, (h.forceWait hforce).2] at hw
    refine ⟨_, { (releaseTokens opts s).1 with phase := .schedule },
      ⟨.none, by delta step; simp only [hp, hw]; rfl⟩, ?_, ?_⟩
    · rw [hstate]
      exact {
        failed := h.failed
        poll := by simp
        runnable := by simp
        forceWait := by simp [hforce]
        dry := h.dry
        drain := by simp }
    · rw [hstate]
      simp [remaining_eq, rank_wait, rank_schedule, hp, hforce]

theorem Smooth.schedule (h : Smooth opts s) (hp : s.phase = .schedule) :
    ∃ es s', Step opts s es s' ∧ Smooth opts s' ∧ remaining s' < remaining s := by
  have hforce : s.forceWait = false := by
    by_contra hforce
    have := (h.forceWait (by simpa using hforce)).1
    simp [hp] at this
  have hrank {p : Phase} {w : Bool} (hlt : rank w p < 5) :
      remaining { updateRunnable s with forceWait := w, phase := p } < remaining s := by
    have hlen := updateRunnable_length s
    have hrank : rank s.forceWait s.phase = 5 := by rw [hp, rank_schedule]
    have hrunning : (updateRunnable s).runningJobs = s.runningJobs := rfl
    simp only [remaining_eq, hrank, hrunning]
    omega
  have hnone : (updateRunnable s).forceWait = false := hforce
  by_cases hempty : (updateRunnable s).runnableJobs = []
  · by_cases hn : s.runningJobs = []
    · refine ⟨[], { updateRunnable s with phase := .drain }, ⟨.none, ?_⟩, ?_, hrank (by simp [rank_drain])⟩
      · have hn' : (updateRunnable s).runningJobs = [] := hn
        delta step
        simp [hp, hempty, hn']
      · exact {
          failed := h.failed
          poll := by simp
          runnable := by simp
          forceWait := by simp [hnone]
          dry := h.dry
          drain := fun _ => hn }
    · refine ⟨[], { updateRunnable s with forceWait := true, phase := .main }, ⟨.none, ?_⟩, ?_,
        hrank (by simp [rank_main])⟩
      · have hn' : (updateRunnable s).runningJobs ≠ [] := hn
        delta step
        simp [hp, hempty, hn']
      · exact {
          failed := h.failed
          poll := by simp
          runnable := by simp
          forceWait := fun _ => ⟨.inl rfl, hn⟩
          dry := h.dry
          drain := by simp }
  · have hsmooth (p : Phase) (hp : p = Phase.token ∨ p = Phase.start) :
        Smooth opts { updateRunnable s with phase := p } := {
      failed := h.failed
      poll := by obtain rfl | rfl := hp <;> simp
      runnable := fun _ => hempty
      forceWait := by simp [hnone]
      dry := h.dry
      drain := by obtain rfl | rfl := hp <;> simp }
    by_cases hserver : (updateRunnable s).runningJobs ≠ [] ∧ opts.jobserver = true
    · refine ⟨[], { updateRunnable s with phase := .token }, ⟨.none, ?_⟩, hsmooth _ (.inl rfl),
        hrank (by simp [rank_token])⟩
      delta step
      simp [hp, hempty, hserver]
    · refine ⟨[], { updateRunnable s with phase := .start }, ⟨.none, ?_⟩, hsmooth _ (.inr rfl),
        hrank (by simp [rank_start])⟩
      delta step
      simp only [hp, hempty, if_false]
      rw [if_neg hserver]

theorem Smooth.start (h : Smooth opts s) (hp : s.phase = .start) :
    ∃ es s', Step opts s es s' ∧ Smooth opts s' ∧ remaining s' < remaining s := by
  obtain ⟨job, rest, hrunnable⟩ := List.exists_cons_of_ne_nil (h.runnable (.inr hp))
  have hforce : s.forceWait = false := by
    by_contra hforce
    have := (h.forceWait (by simpa using hforce)).1
    simp [hp] at this
  cases hd : opts.dryRun with
  | true =>
    refine ⟨_, _, ⟨.none, by delta step; simp only [hp, startJob, hrunnable, hd]; rfl⟩, ?_, ?_⟩
    · exact {
        failed := h.failed
        poll := by simp
        runnable := by simp
        forceWait := by simp [hforce]
        dry := h.dry
        drain := by simp }
    · simp [remaining_eq, rank_start, rank_main, hp, hforce, hrunnable]
      omega
  | false =>
    refine ⟨_, _, ⟨.none, by delta step; simp only [hp, startJob, hrunnable, hd]; rfl⟩, ?_, ?_⟩
    · exact {
        failed := h.failed
        poll := by simp
        runnable := by simp
        forceWait := by simp [hforce]
        dry := by simp [hd]
        drain := by simp }
    · simp [remaining_eq, rank_start, rank_main, hp, hforce, hrunnable]
      omega

/-- Until the end there is a step on which nothing fails. -/
theorem Smooth.step (h : Smooth opts s) (hdone : s.phase ≠ .done) :
    ∃ es s', Step opts s es s' ∧ Smooth opts s' ∧ remaining s' < remaining s := by
  cases hp : s.phase with
  | main => exact h.main hp
  | wait => exact h.wait hp
  | schedule => exact h.schedule hp
  | token =>
    refine ⟨[.tokenTaken], { s with nTokens := s.nTokens + 1, phase := .start },
      ⟨.takeOne true, by delta Minicargo.step; simp [hp]⟩, ?_, by simp [remaining_eq, rank_token, rank_start, hp]⟩
    exact {
      failed := h.failed
      poll := by simp
      runnable := fun _ => h.runnable (.inl hp)
      forceWait := fun hw => absurd (h.forceWait hw).1 (by simp [hp])
      dry := h.dry
      drain := by simp }
  | start => exact h.start hp
  | poll => exact absurd hp h.poll
  | drain =>
    obtain ⟨k, -, hstate, -⟩ := releaseTokens_spec opts s
    refine ⟨_, { (releaseTokens opts s).1 with phase := .done },
      ⟨.none, by delta Minicargo.step; simp only [hp, h.drain hp]; rfl⟩, ?_, ?_⟩
    · rw [hstate]
      exact {
        failed := h.failed
        poll := by simp
        runnable := by simp
        forceWait := fun hw => absurd (h.forceWait hw).1 (by simp [hp])
        dry := h.dry
        drain := by simp }
    · rw [hstate]
      simp [remaining_eq, rank_drain, rank_done, hp]
  | done => exact absurd hp hdone

/-- A run on which every job succeeds. -/
theorem exists_success {s₀ : JobList} (h : Smooth opts s₀) :
    ∃ es s, Run (Step opts) s₀ es s ∧ result s = some true := by
  obtain ⟨es, s, hrun, hsmooth, hdone⟩ := exists_run (I := Smooth opts) (F := (·.phase = Phase.done))
    remaining (fun s hs hdone => hs.step hdone) s₀ h
  exact ⟨es, s, hrun, by simp [result, hdone, hsmooth.failed]⟩

/-- A prefix of the jobs that started comes from a prefix of the run. -/
theorem exists_prefix_of_startedJobs {pre : List Job} {job : Job} (h : pre ++ [job] <+: startedJobs es) :
    ∃ pre', pre' ++ [.started job] <+: es ∧ startedJobs pre' = pre := by
  induction es generalizing pre with
  | nil => simp [startedJobs] at h
  | cons e es ih =>
    cases e with
    | started job' =>
      obtain ⟨rfl, rfl⟩ | ⟨t, rfl, ht⟩ := prefix_cons_cases (l := startedJobs es) h
      · exact ⟨[], List.cons_prefix_cons.mpr ⟨rfl, List.nil_prefix⟩, rfl⟩
      · obtain ⟨pre', hpre', hstarted⟩ := ih ht
        exact ⟨.started job' :: pre', List.cons_prefix_cons.mpr ⟨rfl, hpre'⟩,
          congrArg (job' :: ·) hstarted⟩
    | _ =>
      obtain ⟨pre', hpre', hstarted⟩ := ih h
      exact ⟨_ :: pre', List.cons_prefix_cons.mpr ⟨rfl, hpre'⟩, hstarted⟩

/-- The order in which jobs started puts each behind its dependencies. -/
theorem InOrder.schedulable (h : InOrder es) (hall : (startedJobs es).Perm needed) :
    Schedulable needed := by
  refine ⟨startedJobs es, hall, fun pre job hpre => ?_⟩
  obtain ⟨pre', hpre', rfl⟩ := exists_prefix_of_startedJobs hpre
  obtain ⟨-, hrun, hdeps⟩ := h.started hpre'
  refine ⟨hrun, fun name hname => ?_⟩
  obtain ⟨dep, complete, hended, hdep⟩ := hdeps name hname
  obtain ⟨before, after, rfl⟩ := List.append_of_mem hended
  have hbefore : before ++ [.ended dep true complete] <+: es := by
    refine List.IsPrefix.trans ⟨after ++ [.started job], ?_⟩ hpre'
    simp
  refine ⟨dep, ?_, hdep⟩
  rw [startedJobs_append]
  exact List.mem_append_left _ (h.ended hbefore)

end AllSucceed

/-- `run_all` keeps its promises in every run exactly if the jobs that need running can be put in an
order in which each depends on earlier ones only; otherwise it returns true with jobs still waiting. -/
theorem runAll_safe_iff (jobs : List Job) (numJobs : ℕ) (dryRun created : Bool) (opts : RunOptions)
    (s₀ : JobList) (h : runAll jobs numJobs dryRun created = some (opts, s₀)) :
    (∀ es s, Run (Step opts) s₀ es s → Safe numJobs (neededJobs jobs) es s) ↔
      Schedulable (neededJobs jobs) := by
  constructor
  · intro hsafe
    obtain ⟨-, -, waiting, -, rfl⟩ := runAll_spec h
    have hsmooth : Smooth opts ⟨waiting, [], [], [], false, 0, false, .main⟩ := {
      failed := rfl
      poll := by simp
      runnable := by simp
      forceWait := by simp
      dry := fun _ => rfl
      drain := by simp }
    obtain ⟨es, s, hrun, hresult⟩ := exists_success hsmooth
    have hs := hsafe es s hrun
    exact hs.inOrder.schedulable (hs.success hresult).2.2.1
  · intro hord es s hrun
    obtain ⟨-, hn, -⟩ := runAll_spec h
    exact (run_invariant h hrun).safe hn hord

theorem sortJobs_of_pairwise {jobs : List Job}
    (h : jobs.Pairwise fun a b => (!decide (b.name < a.name)) = true) : sortJobs jobs = jobs :=
  List.mergeSort_of_pairwise h

/-- A binary that needs a library whose name comes later. -/
theorem binary_with_library_safe :
    let jobs : List Job := [⟨[97], [[98]], false, true⟩, ⟨[98], [], false, true⟩]
    ∀ es s, Run (Step ⟨2, false, true⟩) ⟨jobs, [], [], [], false, 0, false, .main⟩ es s →
      Safe 2 (neededJobs jobs) es s := by
  intro jobs
  refine (runAll_safe_iff jobs 2 false true ⟨2, false, true⟩ _ ?_).mpr ?_
  · rw [runAll, sortJobs_of_pairwise (by decide)]
    rfl
  · refine ⟨[⟨[98], [], false, true⟩, ⟨[97], [[98]], false, true⟩], by decide, fun pre job hpre => ?_⟩
    obtain ⟨rfl, rfl⟩ | ⟨t, rfl, ht⟩ := prefix_cons_cases hpre
    · exact ⟨rfl, by simp⟩
    · obtain ⟨rfl, rfl⟩ | ⟨u, -, hu⟩ := prefix_cons_cases ht
      · exact ⟨rfl, by simp⟩
      · exact absurd (List.prefix_nil.mp hu) (by simp)

/-- A job whose dependency nothing provides is left waiting, and `run_all` returns true. -/
theorem unknown_dependency_left_waiting :
    let jobs : List Job := [⟨[98], [[97]], false, true⟩]
    ∃ opts s₀ es s, runAll jobs 1 false false = some (opts, s₀) ∧ Run (Step opts) s₀ es s ∧
      result s = some true ∧ s.waitingJobs = jobs ∧ ¬ Safe 1 (neededJobs jobs) es s := by
  intro jobs
  refine ⟨⟨1, false, false⟩, ⟨jobs, [], [], [], false, 0, false, .main⟩, [],
    ⟨jobs, [], [], [], false, 0, false, .done⟩, ?_, ?_, rfl, rfl, fun h => ?_⟩
  · rw [runAll, sortJobs_of_pairwise (by decide)]
    rfl
  · have hwait : Run (Step ⟨1, false, false⟩) ⟨jobs, [], [], [], false, 0, false, .main⟩ []
        ⟨jobs, [], [], [], false, 0, false, .wait⟩ := Run.nil.step ⟨.none, by decide⟩
    have hschedule : Run (Step ⟨1, false, false⟩) ⟨jobs, [], [], [], false, 0, false, .main⟩ ([] ++ [])
        ⟨jobs, [], [], [], false, 0, false, .schedule⟩ := hwait.step ⟨.none, by decide⟩
    have hdrain : Run (Step ⟨1, false, false⟩) ⟨jobs, [], [], [], false, 0, false, .main⟩ ([] ++ [])
        ⟨jobs, [], [], [], false, 0, false, .drain⟩ := by
      refine hschedule.step ⟨.none, ?_⟩
      simp [step, updateRunnable, sortJobs, isReady, jobs]
    have hdone : Run (Step ⟨1, false, false⟩) ⟨jobs, [], [], [], false, 0, false, .main⟩ ([] ++ [])
        ⟨jobs, [], [], [], false, 0, false, .done⟩ := hdrain.step ⟨.none, by decide⟩
    exact hdone
  · exact absurd (h.success rfl).1 (by simp [jobs])

end Mrustc.Minicargo
