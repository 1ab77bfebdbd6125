import Fronta.Store.Lemmas.Statements
import Fronta.Store.Spec

/-!
# The statements refine the queue

Each transition of a row is a move of its task, or none. A statement moves every task at most once, so it is a run of
the queue.
-/

namespace Fronta

open Refinement Runs Sql

/-! ## Rows -/

namespace RowOp

variable {op : RowOp} {t t' : Row}

theorem task_complete {now jitter : ℚ} {c : Completion} (h : t.complete now jitter c = some t') :
    ∃ m, (RowOp.complete now jitter c).move = some m ∧ t.task.move m = some t'.task := by
  simp only [Row.complete, Option.ite_none_right_eq_some, Option.some.injEq] at h
  obtain ⟨⟨hr, ht, hk⟩, rfl⟩ := h
  have hcancel : t.cancelRequestedAt = none ∨ ∃ at', t.cancelRequestedAt = some at' := by
    cases t.cancelRequestedAt <;> simp
  cases hkind : c.kind with
  | succeed => exact ⟨.succeed c.token, by simp [move, hkind], by
      simp [Queue.Task.move, hr, ht, Row.task, Row.stage, Row.outcome]⟩
  | fail =>
      refine ⟨.fail c.token, by simp [move, hkind], ?_⟩
      rcases hcancel with hc | ⟨at', hc⟩
      · by_cases hb : t.failures + 1 < t.maxAttempts <;>
          simp [Queue.Task.move, Queue.Task.charge, hr, ht, Row.task, Row.stage, Row.outcome, hc, hb]
      · simp [Queue.Task.move, Queue.Task.charge, hr, ht, Row.task, Row.stage, Row.outcome, hc]
  | failFinal => exact ⟨.failForGood c.token, by simp [move, hkind], by
      simp [Queue.Task.move, hr, ht, Row.task, Row.stage, Row.outcome]⟩
  | release =>
      refine ⟨.giveBack c.token, by simp [move, hkind], ?_⟩
      rcases hcancel with hc | ⟨at', hc⟩ <;>
        simp [Queue.Task.move, hr, ht, Row.task, Row.stage, Row.outcome, hc]
  | cancel =>
      refine ⟨.stop c.token, by simp [move, hkind], ?_⟩
      rcases hcancel with hc | ⟨at', hc⟩
      · exact absurd hc (hk.resolve_left fun h => h hkind)
      · simp [Queue.Task.move, hr, ht, Row.task, Row.stage, Row.outcome, hc]

theorem task_reap {now jitter : ℚ} (hl : t.Lifecycle) (h : t.reap now jitter = some t') :
    t.task.move .expire = some t'.task := by
  simp only [Row.reap, Row.reapable, Option.ite_none_right_eq_some, Option.some.injEq, Bool.and_eq_true,
    decide_eq_true_eq] at h
  obtain ⟨⟨hr, -⟩, rfl⟩ := h
  obtain ⟨token, ht⟩ := Option.isSome_iff_exists.mp (hl.running_token.mp hr)
  cases hc : t.cancelRequestedAt with
  | some at' => simp [Queue.Task.move, hr, ht, Row.task, Row.stage, hc]
  | none =>
      by_cases hb : t.failures + 1 < t.maxAttempts <;>
        simp [Queue.Task.move, Queue.Task.charge, hr, ht, Row.task, Row.stage, hc, hb]

/-- A transition is a move of the task, or leaves it as it is. -/
theorem task_apply (hl : t.Lifecycle) (ha : op.apply t = some t') :
    t'.task = t.task ∨ ∃ m, op.move = some m ∧ t.task.move m = some t'.task := by
  cases op with
  | complete now jitter c => exact Or.inr (task_complete ha)
  | reap now jitter => exact Or.inr ⟨.expire, rfl, task_reap hl ha⟩
  | claim now clock leaseS worker token =>
      simp only [apply, Row.claim, Option.ite_none_right_eq_some, Option.some.injEq] at ha
      obtain ⟨hq, rfl⟩ := ha
      exact Or.inr ⟨.start token, rfl, by simp [Queue.Task.move, Row.task, Row.stage, hq]⟩
  | heartbeat clock leaseS token =>
      simp only [apply, Row.heartbeat, Option.ite_none_right_eq_some, Option.some.injEq] at ha
      obtain ⟨-, rfl⟩ := ha
      exact Or.inl rfl
  | setProgress token progress =>
      simp only [apply, Row.setProgress, Option.ite_none_right_eq_some, Option.some.injEq] at ha
      obtain ⟨-, rfl⟩ := ha
      exact Or.inl rfl
  | requestCancel now =>
      simp only [apply, Row.requestCancel, Option.ite_none_right_eq_some, Option.some.injEq] at ha
      obtain ⟨hs, rfl⟩ := ha
      refine Or.inr ⟨.ask, rfl, ?_⟩
      rcases hs with hs | hs <;> simp [Queue.Task.move, Row.task, Row.stage, Queue.Stage.over, hs]
  | requeue now =>
      simp only [apply, Row.requeue, Option.ite_none_right_eq_some, Option.some.injEq] at ha
      obtain ⟨hs, rfl⟩ := ha
      refine Or.inr ⟨.again, rfl, ?_⟩
      rcases hs with hs | hs <;> simp [Queue.Task.move, Row.task, Row.stage, hs]

end RowOp

theorem over_of_terminal {t : Row} (h : t.state.terminal = true) : t.task.stage.over = true := by
  cases hs : t.state <;> simp_all [State.terminal, Row.task, Row.stage, Queue.Stage.over]

/-! ## Statements -/

/-- The moves that a statement may make. -/
def Op.makes : Op → TaskId × Queue.Move → Prop
  | .enqueue _ task, x => x.2 = .submit task.type task.key task.policy.maxAttempts
  | .purgeTasks .., x => x.2 = .forget
  | op, x => ∃ transition, op.performs x.1 transition ∧ transition.move = some x.2

namespace Db

variable {db : Db} {op : Op} {id : TaskId} {t : Row}

theorem queue_of_none (h : db.tasks.get id = none) : db.queue id = none := by simp [queue, h]

theorem queue_of_some (h : db.tasks.get id = some t) : db.queue id = some t.task := by simp [queue, h]

theorem step_some {t t' : Queue.Task} {m : Queue.Move} (h : t.move m = some t') :
    Queue.Task.step (some t) m = some (some t') := by
  cases m <;> simp_all [Queue.Task.step, Queue.Task.move]

/-- One statement makes at most one move of a task. -/
theorem queue_exec (hok : db.RowsOk) (op : Op) (id : TaskId) : (db.exec op).queue id = db.queue id ∨
    ∃ m, op.makes (id, m) ∧ Queue.Task.step (db.queue id) m = some ((db.exec op).queue id) := by
  cases hget : (db.exec op).tasks.get id with
  | none =>
      rw [queue_of_none hget]
      cases ht : db.tasks.get id with
      | none => exact Or.inl (queue_of_none ht).symm
      | some t =>
          obtain ⟨now, retentionS, batch, busy, rfl, hp⟩ := exec_removed ht hget
          simp only [Row.purgeable, Bool.and_eq_true] at hp
          exact Or.inr ⟨.forget, rfl, by rw [queue_of_some ht, Queue.Task.step, if_pos (over_of_terminal hp.1)]⟩
  | some t' =>
      rw [queue_of_some hget]
      cases exec_origin hget with
      | kept ht => exact Or.inl (queue_of_some ht).symm
      | @moved t transition ht hp ha =>
          rw [queue_of_some ht]
          rcases RowOp.task_apply (hok id t ht) ha with he | ⟨m, hm, hmove⟩
          · exact Or.inl (congrArg some he)
          · refine Or.inr ⟨m, ?_, step_some hmove⟩
            cases op <;> first | exact hp.elim | exact ⟨transition, hp, hm⟩
      | @inserted now task ho hi hrow =>
          subst ho hrow
          refine Or.inr ⟨_, rfl, ?_⟩
          have hpos : 0 < task.policy.maxAttempts := task.policy.one_le_maxAttempts
          rw [queue_of_none (db.tasks.get_of_le (Nat.le_of_eq hi.symm)), Queue.Task.step, if_pos hpos]
          rfl

/-! ## Keys -/

theorem free_of_find {type : Name} {key : Option String} (h : db.findActiveByKey type key = none) :
    Queue.Free db.queue type key := by
  intro id task hq htype hkey hne
  obtain ⟨t, ht, rfl⟩ := Option.map_eq_some_iff.mp hq
  obtain ⟨k, rfl⟩ := Option.ne_none_iff_exists'.mp hne
  have hnone := Table.find_eq_none.mp (Option.map_eq_none_iff.mp h) id t ht
  have hk : t.key = some k := hkey
  have ht' : t.type = type := htype
  cases hact : t.state.active with
  | true => simp [Row.keyed, ht', hk, hact] at hnone
  | false => exact over_of_terminal (by simpa [State.active] using hact)

/-- What an enqueue does to the queue, if anything. -/
theorem queue_enqueue (now : Time) (task : NewTask) : (db.exec (.enqueue now task)).queue = db.queue ∨
    Queue.Free db.queue task.type task.key ∧ (db.exec (.enqueue now task)).queue =
      Function.update db.queue db.tasks.next (some (Row.enqueued now task).task) := by
  simp only [exec, Db.enqueue]
  cases task.check with
  | error e => exact Or.inl rfl
  | ok u =>
      cases hk : db.findActiveByKey task.type task.key with
      | some i => exact Or.inl (by simp; rfl)
      | none =>
          refine Or.inr ⟨free_of_find hk, funext fun i => ?_⟩
          by_cases hi : i = db.tasks.next <;> simp [hi, queue, Table.get_insert, Function.update, pure, Except.pure,
            bind, Except.bind, Except.map, Except.toOption]

/-- A requeue moves nothing, or one task to a free key. -/
theorem queue_requeue (now : Time) (i : TaskId) : (db.exec (.requeue now i)).queue = db.queue ∨
    (∀ t, db.queue i = some t → Queue.Free db.queue t.type t.key) ∧
      ∀ id, id ≠ i → (db.exec (.requeue now i)).queue id = db.queue id := by
  simp only [exec, Db.requeue]
  cases ht : db.tasks.get i with
  | none => exact Or.inl rfl
  | some t =>
      dsimp only
      split_ifs with hr hd
      · exact Or.inl rfl
      · exact Or.inl rfl
      · refine Or.inr ⟨fun task htask => ?_, fun id hid => ?_⟩
        · obtain rfl := Option.some.inj ((queue_of_some ht).symm.trans htask)
          exact free_of_find (Option.not_isSome_iff_eq_none.mp hd)
        · simp only [queue, Except.map, Except.toOption, Option.getD_some, withEvents_tasks, Table.get_update, hid,
            if_false, Option.getD_none]
          simp

/-! ## Runs -/

theorem run_step {ops : List Op} : run step db ops = some (db.execAll ops) := by
  induction ops generalizing db with
  | nil => rfl
  | cons op ops ih => exact run_cons.mpr ⟨_, rfl, ih⟩

theorem run_of_family {q q' : Queue.Tasks} {moves : List (TaskId × Queue.Move)}
    (h : run (family Queue.Task.step) q moves = some q') (hfree : ∀ x ∈ moves, ∀ q, Queue.Admits q x) :
    run Queue.step q moves = some q' := by
  induction moves generalizing q with
  | nil => exact h
  | cons x moves ih =>
      obtain ⟨q₁, hx, hrun⟩ := run_cons.mp h
      obtain ⟨hfx, hfree⟩ := List.forall_mem_cons.mp hfree
      exact run_cons.mpr ⟨q₁, (if_pos (hfx q)).trans hx, ih hrun hfree⟩

theorem admits_of_move {q : Queue.Tasks} {x : TaskId × Queue.Move} {transition : RowOp}
    (h : transition.move = some x.2) (hr : transition.isRequeue = false) : Queue.Admits q x := by
  obtain ⟨i, m⟩ := x
  cases transition with
  | complete now jitter c =>
      cases hk : c.kind <;> simp only [RowOp.move, hk, Option.some.injEq] at h <;> subst h <;> trivial
  | requeue => cases hr
  | heartbeat => cases h
  | setProgress => cases h
  | _ => cases h; trivial

/-- The single move of a statement about one task. -/
theorem run_single {q q' : Queue.Tasks} {p : TaskId × Queue.Move → Prop}
    (hout : ∀ j, j ≠ id → q' j = q j) (hin : q' id = q id ∨ ∃ m, p (id, m) ∧ Queue.Task.step (q id) m = some (q' id))
    (hfree : ∀ m, p (id, m) → Queue.Admits q (id, m)) :
    ∃ moves, (∀ x ∈ moves, p x) ∧ run Queue.step q moves = some q' := by
  have hq : q' = Function.update q id (q' id) := funext fun j => by
    by_cases hj : j = id
    · rw [hj, Function.update_self]
    · rw [Function.update_of_ne hj, hout j hj]
  rcases hin with he | ⟨m, hm, hstep⟩
  · refine ⟨[], fun x hx => absurd hx List.not_mem_nil, ?_⟩
    rw [hq, he, Function.update_eq_self]
    rfl
  · refine ⟨[(id, m)], fun x hx => List.mem_singleton.mp hx ▸ hm, run_cons.mpr ⟨q', ?_, rfl⟩⟩
    rw [Queue.step, if_pos (hfree m hm), family, hstep, Option.map_some, ← hq]

/-- A statement is a run of the queue. -/
theorem exec_refines (hok : db.RowsOk) (op : Op) :
    ∃ moves, (∀ x ∈ moves, op.makes x) ∧ run Queue.step db.queue moves = some (db.exec op).queue := by
  have hmany : (∀ x q, op.makes x → Queue.Admits q x) →
      ∃ moves, (∀ x ∈ moves, op.makes x) ∧ run Queue.step db.queue moves = some (db.exec op).queue := by
    intro hfree
    have hout : ∀ i, i ∉ List.range (db.exec op).tasks.next → (db.exec op).queue i = db.queue i := by
      intro i hi
      have hle : (db.exec op).tasks.next ≤ i := by simpa using hi
      rw [queue_of_none (Table.get_of_le _ hle), queue_of_none (Table.get_of_le _ (exec_next_le.trans hle))]
    obtain ⟨moves, hm, hrun⟩ := family_run (p := fun id m => op.makes (id, m)) List.nodup_range hout
      fun i _ => queue_exec hok op i
    exact ⟨moves, hm, run_of_family hrun fun x hx q => hfree x q (hm x hx)⟩
  cases op with
  | enqueue now task =>
      rcases @queue_enqueue db now task with he | ⟨hfree, he⟩
      · exact ⟨[], fun x hx => absurd hx List.not_mem_nil, by rw [he]; rfl⟩
      · refine run_single (fun j (hj : j ≠ db.tasks.next) => by rw [he, Function.update_of_ne hj])
          (queue_exec hok _ _) fun m hm => ?_
        obtain rfl : m = _ := hm
        exact hfree
  | requeue now i =>
      rcases @queue_requeue db now i with he | ⟨hfree, hout⟩
      · exact ⟨[], fun x hx => absurd hx List.not_mem_nil, by rw [he]; rfl⟩
      · refine run_single hout (queue_exec hok _ _) fun m hm => ?_
        obtain ⟨transition, ⟨-, rfl⟩, htm⟩ := hm
        cases htm
        exact hfree
  | purgeTasks now retentionS batch busy =>
      exact hmany fun x q hx => by
        have hx : x.2 = .forget := hx
        simp [Queue.Admits, hx]
  | _ =>
      exact hmany fun x q ⟨transition, hp, hm⟩ => admits_of_move hm (by
        cases hr : transition.isRequeue with
        | false => rfl
        | true => exact absurd (Op.requeues_of_performs hp hr) Bool.false_ne_true)

end Db

/-! ## Budgets -/

namespace Queue

variable {t t' : Task} {m : Move} {renewed released : ℕ}

theorem Within.charge {token : Token} (h : Within renewed released t) (hs : t.stage = .working token) :
    Within renewed released t.charge := by
  obtain ⟨hle, hlt⟩ := h.working token hs
  refine ⟨h.budget, fun hw => ?_, fun token hw => ?_, ?_⟩
  · unfold Task.charge at hw ⊢
    split_ifs at hw with hd hb
    exact ⟨by dsimp only; omega, hb⟩
  · unfold Task.charge at hw
    split_ifs at hw
  · change t.started ≤ t.budget * renewed + t.budget + released
    omega

theorem Within.mono {renewed' released' : ℕ} (h : Within renewed released t) (hr : renewed ≤ renewed')
    (hle : released ≤ released') : Within renewed' released' t := by
  have hmul : t.budget * renewed ≤ t.budget * renewed' := Nat.mul_le_mul_left _ hr
  have hstarted := h.started
  refine ⟨h.budget, fun hw => ?_, fun token hw => ?_, by omega⟩
  · obtain ⟨hw, hlt⟩ := h.waiting hw
    exact ⟨by omega, hlt⟩
  · obtain ⟨hw, hlt⟩ := h.working token hw
    exact ⟨by omega, hlt⟩

/-- A task that is over owes nothing. -/
theorem Within.over (h : Within renewed released t) (ho : t'.stage.over = true) (hstarted : t'.started = t.started)
    (hbudget : t'.budget = t.budget) : Within renewed released t' := by
  refine ⟨hbudget ▸ h.budget, fun hw => ?_, fun token hw => ?_, ?_⟩
  · rw [hw] at ho
    cases ho
  · rw [hw] at ho
    cases ho
  · rw [hstarted, hbudget]
    exact h.started

/-- What a move adds to the allowance of its task. -/
theorem Within.move (h : Within renewed released t) (hm : t.move m = some t') :
    Within (renewed + if m.renews then 1 else 0) (released + if m.givesBack then 1 else 0) t' := by
  cases m with
  | submit => cases hm
  | forget => cases hm
  | again =>
      simp only [Task.move, Option.ite_none_right_eq_some, Option.some.injEq] at hm
      obtain ⟨-, rfl⟩ := hm
      have hstarted := h.started
      have hmul : t.budget * (renewed + 1) = t.budget * renewed + t.budget := Nat.mul_succ _ _
      refine ⟨h.budget, fun _ => ⟨?_, h.budget⟩, fun _ hw => (by cases hw), ?_⟩ <;>
        simp [Move.renews, Move.givesBack] <;> omega
  | start token =>
      simp only [Task.move, Option.ite_none_right_eq_some, Option.some.injEq] at hm
      obtain ⟨hs, rfl⟩ := hm
      obtain ⟨hle, hlt⟩ := h.waiting hs
      refine ⟨h.budget, fun hw => (by cases hw), fun _ _ => ⟨Nat.succ_le_succ hle, hlt⟩, ?_⟩
      simp [Move.renews, Move.givesBack]
      omega
  | succeed token =>
      simp only [Task.move, Option.ite_none_right_eq_some, Option.some.injEq] at hm
      obtain ⟨hs, rfl⟩ := hm
      exact h.over rfl rfl rfl
  | fail token =>
      simp only [Task.move, Option.ite_none_right_eq_some, Option.some.injEq] at hm
      obtain ⟨hs, rfl⟩ := hm
      exact h.charge hs
  | failForGood token =>
      simp only [Task.move, Option.ite_none_right_eq_some, Option.some.injEq] at hm
      obtain ⟨hs, rfl⟩ := hm
      exact h.over rfl rfl rfl
  | giveBack token =>
      simp only [Task.move, Option.ite_none_right_eq_some, Option.some.injEq] at hm
      obtain ⟨hs, rfl⟩ := hm
      obtain ⟨hle, hlt⟩ := h.working token hs
      refine ⟨h.budget, fun _ => ⟨by simp [Move.renews, Move.givesBack]; omega, hlt⟩, fun _ hw => ?_,
        by simp [Move.renews, Move.givesBack]; omega⟩
      dsimp only at hw
      split_ifs at hw
  | stop token =>
      simp only [Task.move, Option.ite_none_right_eq_some, Option.some.injEq] at hm
      obtain ⟨hs, rfl⟩ := hm
      exact h.over rfl rfl rfl
  | ask =>
      simp only [Task.move, Option.ite_none_left_eq_some, Option.some.injEq] at hm
      obtain ⟨-, rfl⟩ := hm
      by_cases hs : t.stage = .waiting
      · exact h.over (by simp [hs, Stage.over]) rfl rfl
      · refine ⟨h.budget, fun hw => ?_, fun token hw => ?_, h.started⟩
        · simp [hs] at hw
        · simp only [hs, if_false] at hw
          exact h.working token hw
  | expire =>
      cases hs : t.stage with
      | working token =>
          simp only [Task.move, hs, Option.some.injEq] at hm
          by_cases hd : t.doomed = true
          · rw [if_pos hd] at hm
            subst hm
            exact h.over rfl rfl rfl
          · rw [if_neg hd] at hm
            subst hm
            exact h.charge hs
      | _ => simp [Task.move, hs] at hm

/-- A new task, or none. -/
theorem within_step {o o' : Option Task} (h : ∀ t ∈ o, Within renewed released t) (hs : Task.step o m = some o') :
    ∀ t ∈ o', Within (renewed + if m.renews then 1 else 0) (released + if m.givesBack then 1 else 0) t := by
  cases o with
  | none =>
      cases m with
      | submit type key budget =>
          simp only [Task.step, Option.ite_none_right_eq_some, Option.some.injEq] at hs
          obtain ⟨hpos, rfl⟩ := hs
          intro t ht
          cases ht
          exact ⟨hpos, fun _ => ⟨Nat.zero_le _, hpos⟩, fun _ hw => (by cases hw), Nat.zero_le _⟩
      | _ => cases hs
  | some t =>
      cases m with
      | forget =>
          simp only [Task.step, Option.ite_none_right_eq_some, Option.some.injEq] at hs
          obtain ⟨-, rfl⟩ := hs
          exact fun t ht => by cases ht
      | submit => cases hs
      | _ =>
          obtain ⟨t', hm, rfl⟩ := Option.map_eq_some_iff.mp hs
          intro u hu
          cases hu
          exact (h t rfl).move hm

end Queue

/-- The statement may release this task. -/
def Op.releases : Op → TaskId → Bool
  | .complete _ _ completions, id => completions.any fun c => c.id = id && c.kind = .release
  | .releaseOrphans .., _ => true
  | _, _ => false

theorem Op.releases_of_makes {op : Op} {id : TaskId} {m : Queue.Move} (h : op.makes (id, m))
    (hm : m.givesBack = true) : op.releases id = true := by
  have hkind : ∀ transition : RowOp, transition.move = some m →
      ∃ now jitter c, transition = .complete now jitter c ∧ c.kind = .release := by
    intro transition ht
    cases transition with
    | complete now jitter c =>
        refine ⟨now, jitter, c, rfl, ?_⟩
        cases hk : c.kind <;> simp only [RowOp.move, hk, Option.some.injEq] at ht <;> subst ht <;>
          first | rfl | cases hm
    | heartbeat => cases ht
    | setProgress => cases ht
    | _ => cases ht; cases hm
  cases op with
  | enqueue => cases h; cases hm
  | purgeTasks => cases h; cases hm
  | releaseOrphans => rfl
  | complete now jitter completions =>
      obtain ⟨transition, ⟨c, hc, hid, rfl⟩, ht⟩ := h
      obtain ⟨_, _, _, he, hk⟩ := hkind _ ht
      cases he
      exact List.any_eq_true.mpr ⟨c, hc, by simp [hid, hk]⟩
  | _ =>
      obtain ⟨transition, hp, ht⟩ := h
      obtain ⟨_, _, _, rfl, -⟩ := hkind _ ht
      simp [Op.performs] at hp

theorem Op.requeues_of_makes {op : Op} {id : TaskId} {m : Queue.Move} (h : op.makes (id, m))
    (hm : m.renews = true) : op.requeues id = true := by
  have hkind : ∀ transition : RowOp, transition.move = some m → transition.isRequeue = true := by
    intro transition ht
    cases transition with
    | complete now jitter c =>
        cases hk : c.kind <;> simp only [RowOp.move, hk, Option.some.injEq] at ht <;> subst ht <;> cases hm
    | requeue => rfl
    | heartbeat => cases ht
    | setProgress => cases ht
    | _ => cases ht; cases hm
  cases op with
  | enqueue => cases h; cases hm
  | purgeTasks => cases h; cases hm
  | _ =>
      obtain ⟨transition, hp, ht⟩ := h
      exact Op.requeues_of_performs hp (hkind _ ht)

namespace Db

variable {db : Db} {id : TaskId} {renewed released : ℕ}

theorem within_exec {op : Op} (hok : db.RowsOk) (h : ∀ t ∈ db.queue id, Queue.Within renewed released t) :
    ∀ t ∈ (db.exec op).queue id,
      Queue.Within (renewed + if op.requeues id then 1 else 0) (released + if op.releases id then 1 else 0) t := by
  rcases queue_exec hok op id with he | ⟨m, hm, hs⟩
  · exact fun t ht => (h t (he ▸ ht)).mono (Nat.le_add_right _ _) (Nat.le_add_right _ _)
  · refine fun t ht => (Queue.within_step h hs t ht).mono ?_ ?_
    · cases hg : m.renews with
      | false => simp
      | true => simp [Op.requeues_of_makes hm hg]
    · cases hg : m.givesBack with
      | false => simp
      | true => simp [Op.releases_of_makes hm hg]

theorem within_execAll {ops : List Op} (hok : db.RowsOk) (h : ∀ t ∈ db.queue id, Queue.Within renewed released t) :
    ∀ t ∈ (db.execAll ops).queue id,
      Queue.Within (renewed + ops.countP (·.requeues id)) (released + ops.countP (·.releases id)) t := by
  induction ops generalizing db renewed released with
  | nil => exact h
  | cons op ops ih =>
      intro t ht
      have hw := ih (hok.exec op) (within_exec hok h) t ht
      rw [List.countP_cons, List.countP_cons, Nat.add_comm (ops.countP _), Nat.add_comm (ops.countP _)]
      rwa [Nat.add_assoc, Nat.add_assoc] at hw

end Db

end Fronta
