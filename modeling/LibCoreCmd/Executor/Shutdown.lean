import Mathlib.Data.List.Nodup
import LibCoreCmd.Executor.AsioExecutionContext

/-! Which runnables have been run when `stop` returns, over every interleaving. -/
namespace LibCoreCmd.Executor

open Transition

variable {ρ κ : Type} {c d : Context ρ κ} {a : Action ρ κ} {as : List (Action ρ κ)} {t : Ticket}

/-- The runnable the loop thread is in, or was in when it threw. -/
def LoopPc.current : LoopPc → List Ticket
  | .inTask _ t | .terminated t => [t]
  | _ => []

/-- The loop thread is in `run`, or died there. -/
def LoopPc.working : LoopPc → Bool
  | .inRun _ | .inTask _ _ | .terminated _ => true
  | _ => false

/-- What `stop` owes: the calls of `execute` that had returned before it was called,
and everything posted by a runnable. -/
def Context.owed (c : Context ρ κ) : List Ticket := c.beforeStop ++ c.byTasks

/-- The runnables were run in the order of posting, and once `stop` has returned
everything owed has been run once. -/
structure NoTaskLost (c : Context ρ κ) : Prop where
  inOrder : c.executed <+: List.range c.posts.length
  once : c.stopper = .joined → ∀ t ∈ c.owed, c.executed.count t = 1

/-- The flag is not set between a `run` that found nothing and the test after it, while
a post that `stop` owes is waiting. -/
def Harmless (c : Context ρ κ) : Action ρ κ → Prop
  | .setFlag => ¬ (c.pc = .returned 0 ∧ ∃ t ∈ c.queue, t ∈ c.beforeStop)
  | _ => True

/-- Executed, running and waiting posts are all the posts, in order, and no ticket is
known for a post that was not made. -/
structure Lined (c : Context ρ κ) : Prop where
  line : c.executed ++ c.pc.current ++ c.queue = List.range c.posts.length
  calling : ∀ k t, c.calling k = some t → t < c.posts.length
  returned : ∀ t ∈ c.returned, t < c.posts.length
  beforeStop : ∀ t ∈ c.beforeStop, t < c.posts.length
  byTasks : ∀ t ∈ c.byTasks, t < c.posts.length

theorem lined_start : Lined (Context.start : Context ρ κ) := by
  constructor <;> simp [Context.start, LoopPc.current]

/-- A post joins the end of the queue under the next ticket. -/
theorem line_enqueue (hl : Lined c) (r : ρ) :
    c.executed ++ c.pc.current ++ (c.enqueue r).queue = List.range (c.enqueue r).posts.length := by
  rw [queue_enqueue, ← List.append_assoc, hl.line, length_posts_enqueue, List.range_succ]

/-- The ticket of a new post is not one that was handed out before. -/
theorem mem_queue_enqueue {r : ρ} (ht : t < c.posts.length) :
    t ∈ (c.enqueue r).queue ↔ t ∈ c.queue := by
  simp [Nat.ne_of_lt ht]

theorem count_executed (hl : Lined c) (ht : t < c.posts.length) (hp : c.pc.current = [])
    (hq : t ∉ c.queue) : c.executed.count t = 1 := by
  have hone : (List.range c.posts.length).count t = 1 :=
    List.count_eq_one_of_mem List.nodup_range (List.mem_range.mpr ht)
  rw [← hl.line, hp, List.append_nil, List.count_append, List.count_eq_zero_of_not_mem hq] at hone
  exact hone

theorem not_mem_executed (hl : Lined c) (hq : t ∈ c.queue) : t ∉ c.executed := by
  have hn : (c.executed ++ c.pc.current ++ c.queue).Nodup := by
    rw [hl.line]
    exact List.nodup_range
  intro he
  exact (List.nodup_append.mp hn).2.2 t (List.mem_append_left _ he) t hq rfl

theorem executed_inOrder (hl : Lined c) : c.executed <+: List.range c.posts.length :=
  ⟨c.pc.current ++ c.queue, by rw [← List.append_assoc, hl.line]⟩

section Steps
variable [DecidableEq κ]

theorem lined_step (hl : Lined c) (hs : Step c a d) : Lined d := by
  have grows : ∀ t, t < c.posts.length → t < c.posts.length + 1 := fun t ht => by omega
  have ⟨hline, hcall, hret, hbef, hby⟩ := hl
  cases hs with
  | @post k r hc =>
    refine ⟨line_enqueue hl r, ?_, ?_, ?_, ?_⟩ <;> simp only [length_posts_enqueue]
    · intro j t hj
      by_cases hjk : j = k
      · subst hjk
        have ht : c.posts.length = t := by simpa using hj
        exact ht ▸ Nat.lt_succ_self _
      · exact grows t (hcall j t (by simpa [hjk] using hj))
    · exact fun t ht => grows t (hret t ht)
    · exact fun t ht => grows t (hbef t ht)
    · exact fun t ht => grows t (hby t ht)
  | @taskPost n t r hp =>
    refine ⟨line_enqueue hl r, ?_, ?_, ?_, ?_⟩ <;> simp only [length_posts_enqueue]
    · exact fun k t ht => grows t (hcall k t ht)
    · exact fun t ht => grows t (hret t ht)
    · exact fun t ht => grows t (hbef t ht)
    · intro t ht
      rcases List.mem_append.mp ht with ht | ht
      · exact grows t (hby t ht)
      · rw [List.mem_singleton.mp ht]
        exact Nat.lt_succ_self _
  | @ret k t hc =>
    refine ⟨hline, ?_, ?_, hbef, hby⟩
    · intro j u hj
      by_cases hjk : j = k
      · simp [hjk] at hj
      · exact hcall j u (by simpa [hjk] using hj)
    · intro u hu
      rcases List.mem_append.mp hu with hu | hu
      · exact hret u hu
      · rw [List.mem_singleton.mp hu]
        exact hcall k t hc
  | callStop => exact ⟨hline, hcall, hret, hret, hby⟩
  | setFlag => exact ⟨hline, hcall, hret, hbef, hby⟩
  | _ =>
    refine ⟨?_, hcall, hret, hbef, hby⟩
    simp_all [LoopPc.current]

/-- How the loop and the stopping thread stand to each other. Outside of `run` nothing
that a runnable posted is waiting. -/
structure Phases (c : Context ρ κ) : Prop where
  flag : c.shouldStop = true ↔ c.stopper = .flagSet ∨ c.stopper = .joined
  exited : c.pc = .exited → c.shouldStop = true
  joined : c.stopper = .joined → c.pc = .exited
  fresh : c.pc = .looping → c.stopped = false
  byTasks : c.pc.working = false → ∀ t ∈ c.byTasks, t ∉ c.queue

theorem phases_step (hl : Lined c) (hp : Phases c) (hs : Step c a d) : Phases d := by
  have ⟨hflag, hexit, hjoin, hfresh, hby⟩ := hp
  cases hs with
  | post hc =>
    refine ⟨hflag, hexit, hjoin, hfresh, ?_⟩
    intro hw t ht
    rw [mem_queue_enqueue (hl.byTasks t ht)]
    exact hby hw t ht
  | ret hc => exact ⟨hflag, hexit, hjoin, hfresh, hby⟩
  | callStop hst => constructor <;> simp_all
  | setFlag hst => constructor <;> simp_all
  | join hst hpc => constructor <;> simp_all
  | enterStopped hpc => simp_all
  | enterRun hpc => constructor <;> simp_all [LoopPc.working]
  | take hpc => constructor <;> simp_all [LoopPc.working]
  | taskPost hpc => constructor <;> simp_all [LoopPc.working]
  | finish hpc => constructor <;> simp_all [LoopPc.working]
  | throw hpc => constructor <;> simp_all [LoopPc.working]
  | leaveRun hpc hq => constructor <;> simp_all
  | exit hpc hst => constructor <;> simp_all [LoopPc.working]
  | again hpc hn => constructor <;> simp_all [LoopPc.working]
  | reset hpc => constructor <;> simp_all [LoopPc.working]

/-- Once the loop is bound to end, nothing that `stop` was called after is waiting. -/
def Drained (c : Context ρ κ) : Prop :=
  c.pc = .exited ∨ c.pc = .returned 0 ∧ c.shouldStop = true → ∀ t ∈ c.beforeStop, t ∉ c.queue

theorem drained_step (hl : Lined c) (hp : Phases c) (hd : Drained c) (ha : Harmless c a)
    (hs : Step c a d) : Drained d := by
  cases hs with
  | post hc =>
    intro he t ht
    rw [mem_queue_enqueue (hl.beforeStop t ht)]
    exact hd he t ht
  | ret hc => exact hd
  | callStop hst =>
    -- the loop is not bound to end before the flag is set
    intro he
    have hflag := hp.flag
    have hexit := hp.exited
    simp_all
  | setFlag hst =>
    intro he t ht hm
    have hflag := hp.flag
    have hexit := hp.exited
    rcases he with he | ⟨he, -⟩
    · simp_all
    · exact ha ⟨he, t, hm, ht⟩
  | join hst hpc => exact fun _ => hd (Or.inl hpc)
  | enterStopped hpc hst => simp_all [hp.fresh hpc]
  | leaveRun hpc hq =>
    intro _ t _
    simp [hq]
  | exit hpc hst => exact fun _ => hd (Or.inr ⟨hpc, hst⟩)
  | enterRun | take | taskPost | finish | throw | again | reset => simp_all [Drained]

/-- A post that `stop` owes is waiting while the loop is bound to end. -/
def Doomed (c : Context ρ κ) : Prop :=
  c.shouldStop = true ∧ (c.pc = .exited ∨ c.pc = .returned 0) ∧ ∃ t ∈ c.queue, t ∈ c.beforeStop

theorem doomed_step (hp : Phases c) (hd : Doomed c) (hs : Step c a d) : Doomed d := by
  obtain ⟨hst, hpc, t, hq, hb⟩ := hd
  have hflag := hp.flag
  cases hs with
  | post hc => exact ⟨hst, hpc, t, by simp [hq], hb⟩
  | ret hc => exact ⟨hst, hpc, t, hq, hb⟩
  | callStop hidle => simp_all
  | setFlag hcall => exact ⟨rfl, hpc, t, hq, hb⟩
  | join hset hex => exact ⟨hst, hpc, t, hq, hb⟩
  | exit hret hstop => exact ⟨hst, Or.inl rfl, t, hq, hb⟩
  | again hret hn => rcases hpc with hpc | hpc <;> simp_all
  | _ => rcases hpc with hpc | hpc <;> simp_all

theorem doomed_of_harmful (ha : ¬ Harmless c a) (hs : Step c a d) : Doomed d := by
  cases hs with
  | setFlag hst =>
    obtain ⟨hpc, t, hq, hb⟩ := not_not.mp ha
    exact ⟨rfl, Or.inr hpc, t, hq, hb⟩
  | _ => exact (ha trivial).elim

/-- What every run of the executor keeps. -/
def Ordered (c : Context ρ κ) : Prop := Lined c ∧ Phases c

omit [DecidableEq κ] in
theorem ordered_start : Ordered (Context.start : Context ρ κ) := by
  refine ⟨lined_start, ?_⟩
  constructor <;> simp [Context.start]

theorem ordered_step (ho : Ordered c) (hs : (executor ρ κ).step c a d) : Ordered d :=
  have step := step_of_executor hs
  ⟨lined_step ho.1 step, phases_step ho.1 ho.2 step⟩

theorem ordered_run (h : (executor ρ κ).Run .start as c) : Ordered c :=
  h.invariant ordered_start fun _ _ _ => ordered_step

theorem drained_run (h : ((executor ρ κ).restrict Harmless).Run .start as c) : Drained c := by
  refine (h.invariant (P := fun c => Ordered c ∧ Drained c) ⟨ordered_start, ?_⟩ ?_).2
  · simp [Drained, Context.start]
  · intro c a d hc hs
    exact ⟨ordered_step hc.1 hs.2, drained_step hc.1.1 hc.1.2 hc.2 hs.1 (step_of_executor hs.2)⟩

theorem harmless_or_doomed (h : (executor ρ κ).Run .start as c) :
    ((executor ρ κ).restrict Harmless).Run .start as c ∨ Doomed c :=
  h.restrict_or ordered_start (fun _ _ _ => ordered_step)
    (fun _ _ _ _ hs ha => doomed_of_harmful ha (step_of_executor hs))
    (fun _ _ _ ho hd hs => doomed_step ho.2 hd (step_of_executor hs))

theorem noTaskLost_of_harmless (h : ((executor ρ κ).restrict Harmless).Run .start as c) :
    NoTaskLost c := by
  obtain ⟨hl, hp⟩ := ordered_run (run_of_restrict h)
  refine ⟨executed_inOrder hl, fun hj t ht => ?_⟩
  have hexit := hp.joined hj
  rcases List.mem_append.mp ht with ht | ht
  · exact count_executed hl (hl.beforeStop t ht) (by simp [hexit, LoopPc.current])
      (drained_run h (Or.inl hexit) t ht)
  · exact count_executed hl (hl.byTasks t ht) (by simp [hexit, LoopPc.current])
      (hp.byTasks (by simp [hexit, LoopPc.working]) t ht)

omit [DecidableEq κ] in
theorem Doomed.lost (hd : Doomed c) (hl : Lined c) (hj : c.stopper = .joined) : ¬ NoTaskLost c := by
  obtain ⟨-, -, t, hq, hb⟩ := hd
  intro hn
  have hone := hn.once hj t (List.mem_append_left _ hb)
  rw [List.count_eq_zero_of_not_mem (not_mem_executed hl hq)] at hone
  cases hone

/-- A run in which the flag is never set at the wrong moment loses nothing, and every
run that comes to the end of `stop` without a loss is such a run. -/
theorem stop_loses_no_task (h : (executor ρ κ).Run .start as c) :
    (((executor ρ κ).restrict Harmless).Run .start as c → NoTaskLost c) ∧
      (c.stopper = .joined → NoTaskLost c →
        ((executor ρ κ).restrict Harmless).Run .start as c) := by
  refine ⟨noTaskLost_of_harmless, fun hj hn => ?_⟩
  rcases harmless_or_doomed h with hr | hd
  · exact hr
  · exact (hd.lost (ordered_run h).1 hj hn).elim

end Steps

/-- The loop finds the post, and comes to its end after the flag is set. -/
def servedActions : List (Action Unit Unit) :=
  [.post () (), .ret (), .enterRun, .take, .finish, .callStop, .setFlag, .leaveRun, .test, .reset,
    .enterRun, .leaveRun, .test, .join]

theorem stop_loses_no_task_once : ∃ c : Context Unit Unit,
    (executor Unit Unit).Run .start servedActions c ∧ c.stopper = .joined ∧ NoTaskLost c := by
  refine ⟨_, run_ofNext.mpr rfl, rfl, ?_⟩
  have run : (executor Unit Unit).Run .start servedActions _ := run_ofNext.mpr rfl
  refine (stop_loses_no_task run).1 ((harmless_or_doomed run).resolve_right ?_)
  rintro ⟨-, -, t, hq, -⟩
  cases hq

/-- `execute` and `stop` fall between a `run` that found nothing and the test after it. -/
theorem execute_then_stop_loses_task :
    ¬ ∀ as c, (executor Unit Unit).Run .start as c → NoTaskLost c := by
  intro h
  have run : (executor Unit Unit).Run .start
      [.enterRun, .leaveRun, .post () (), .ret (), .callStop, .setFlag, .test, .join] _ :=
    run_ofNext.mpr rfl
  have hone := (h _ _ run).once rfl 0 (by decide)
  revert hone
  decide

end LibCoreCmd.Executor
