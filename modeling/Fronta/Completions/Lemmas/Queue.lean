import Fronta.Completions.System

/-!
# The queue of completions

A call keeps its completion, and its future changes once. `Core` says what the queue, the batches and the
futures know of each other, whatever the background task does.
-/

namespace Fronta.Completions

open Sql Batching

variable {ε : Type} {s s' : Sys ε} {y : Entry} {x : Ref} {call : Call ε}

namespace Sys

/-- The call of an entry meets `p`. -/
def Holds (s : Sys ε) (y : Entry) (p : Call ε → Prop) : Prop :=
  ∃ call, s.calls.get y.2 = some call ∧ call.completion = y.1 ∧ p call

theorem Holds.imp {p q : Call ε → Prop} (h : s.Holds y p) (hpq : ∀ call, p call → q call) :
    s.Holds y q := by
  obtain ⟨call, hc, he, hp⟩ := h
  exact ⟨call, hc, he, hpq call hp⟩

/-! ## Futures -/

theorem get_resolve (entries : List Entry) (f : TaskId → Future ε) :
    (s.resolve entries f).calls.get x = (s.calls.get x).map fun call =>
      if (call.completion, x) ∈ entries ∧ call.future.done = false then
        { call with future := f call.completion.id }
      else call := by
  simp only [resolve, Table.get_update]
  congr 1
  funext call
  split <;> rfl

theorem calls_answer {batch active : List Entry} {applied : TaskId → Option State} :
    (s.answer batch active applied).calls =
      (s.resolve batch fun id => .result (applied id)).calls := rfl

theorem calls_fail {batch : List Entry} {e : Option ε} :
    (s.fail e batch).calls =
      (s.resolve (batch ++ s.pending) fun _ => e.elim .cancelled .exception).calls := rfl

theorem get_cancel (x' : Ref) :
    (s.cancel x').calls.get x = (s.calls.get x).map fun call =>
      if x = x' ∧ call.future.done = false then
        { call with future := .cancelled, withdrawn := decide ((call.completion, x') ∈ s.pending) }
      else call := by
  simp only [cancel, Table.get_update]
  congr 1
  funext call
  split <;> rfl

theorem get_resolve_cases {entries : List Entry} {f : TaskId → Future ε} {call' : Call ε}
    (hs : s'.calls = (s.resolve entries f).calls) (h : s'.calls.get x = some call') :
    ∃ call, s.calls.get x = some call ∧
      (((call.completion, x) ∈ entries ∧ call.future.done = false ∧
          call' = { call with future := f call.completion.id }) ∨
        (((call.completion, x) ∈ entries → call.future.done = true) ∧ call' = call)) := by
  rw [hs, get_resolve] at h
  obtain ⟨call, hc, he⟩ := Option.map_eq_some_iff.mp h
  refine ⟨call, hc, ?_⟩
  split at he
  · rename_i hm
    exact Or.inl ⟨hm.1, hm.2, he.symm⟩
  · rename_i hm
    exact Or.inr ⟨fun hin => by simpa [hin] using hm, he.symm⟩

theorem get_cancel_cases {x' : Ref} {call' : Call ε} (h : (s.cancel x').calls.get x = some call') :
    ∃ call, s.calls.get x = some call ∧
      ((x = x' ∧ call.future.done = false ∧ call' = { call with
          future := .cancelled
          withdrawn := decide ((call.completion, x) ∈ s.pending) }) ∨ call' = call) := by
  rw [get_cancel] at h
  obtain ⟨call, hc, he⟩ := Option.map_eq_some_iff.mp h
  refine ⟨call, hc, ?_⟩
  split at he
  · rename_i hm
    obtain ⟨rfl, hd⟩ := hm
    exact Or.inl ⟨rfl, hd, he.symm⟩
  · exact Or.inr he.symm

theorem done_of_cancelled {completion : Completion} (hc : s.calls.get x = some call)
    (h : s.cancelled (completion, x) = true) : call.future.done = true := by
  simp only [cancelled, hc, Option.any_some] at h
  cases hf : call.future <;> simp [hf, Future.isCancelled, Future.done] at h ⊢

/-- Calls stay, and futures that are done do not change. -/
def Later (s s' : Sys ε) : Prop :=
  ∀ x call, s.calls.get x = some call → ∃ call', s'.calls.get x = some call' ∧
    call'.completion = call.completion ∧ (call.future.done = true → call' = call)

theorem later_resolve {entries : List Entry} {f : TaskId → Future ε}
    (hs : s'.calls = (s.resolve entries f).calls) : Later s s' := by
  intro x call hc
  refine ⟨_, by rw [hs, get_resolve, hc]; rfl, ?_, fun hd => ?_⟩
  · dsimp only
    split <;> rfl
  · simp [hd]

theorem later_cancel (x : Ref) : Later s (s.cancel x) := by
  intro x' call hc
  refine ⟨_, by rw [get_cancel, hc]; rfl, ?_, fun hd => ?_⟩
  · dsimp only
    split <;> rfl
  · simp [hd]

theorem later_complete (completion : Completion) : Later s (s.complete completion) :=
  fun _ call hc => ⟨call, Table.get_insert_of_get hc, rfl, fun _ => rfl⟩

theorem Holds.later {p : Call ε → Prop} (h : s.Holds y p) (hl : Later s s')
    (hd : ∀ call, p call → call.future.done = true) : s'.Holds y p := by
  obtain ⟨call, hc, he, hp⟩ := h
  obtain ⟨call', hc', hcomp, hsame⟩ := hl y.2 call hc
  exact ⟨call', hc', hcomp.trans he, (hsame (hd call hp)) ▸ hp⟩

end Sys

/-! ## Entries -/

/-- Where a future that is done comes from. -/
def Fate (s : Sys ε) (y : Entry) : Future ε → Prop
  | .pending => True
  | .result state => ∃ r ∈ s.results, y ∈ r.1 ∧ state = r.2 y.1.id
  | .exception e => ∃ f ∈ s.failures, f.1 = some e ∧ y ∈ f.2
  | .cancelled => True

structure Core (s : Sys ε) : Prop where
  order : (s.handed.flatten ++ s.pending).Pairwise fun y z => y.2 < z.2
  bounded : ∀ y ∈ s.handed.flatten ++ s.pending, y.2 < s.calls.next
  queued : ∀ y ∈ s.pending, s.Holds y fun call =>
    call.future = .pending ∨ (call.future = .cancelled ∧ call.withdrawn = true)
  handed : ∀ b ∈ s.handed, b ≠ [] ∧ b.length ≤ 256 ∧ (b.map (·.1.id)).Nodup
  answered : ∀ r ∈ s.results, r.1 ∈ s.handed ∧ ∀ y ∈ r.1, s.Holds y fun call =>
    call.future = .result (r.2 y.1.id) ∨ call.future = .cancelled
  failed : ∀ f ∈ s.failures, ∀ y ∈ f.2, s.Holds y fun call =>
    call.future = f.1.elim .cancelled .exception ∨ call.future = .cancelled
  waiting : ∀ x call, s.calls.get x = some call → call.future.done = false → call.withdrawn = false
  fate : ∀ x call, s.calls.get x = some call → Fate s (call.completion, x) call.future
  delivered : ∀ x call, s.calls.get x = some call → call.withdrawn = false →
    (call.completion, x) ∈ s.pending ∨ (call.completion, x) ∈ s.handed.flatten ∨
      ∃ f ∈ s.failures, (call.completion, x) ∈ f.2

/-- Every future that is not done is in the queue. -/
def Idle (s : Sys ε) : Prop :=
  ∀ x call, s.calls.get x = some call → call.future.done = false → (call.completion, x) ∈ s.pending

/-- The background task fits the queue, and knows the futures that are not done. -/
def Fits (s : Sys ε) : Option Background → Prop
  | none => s.pending = [] ∧ Idle s
  | some (.created _) => s.pending ≠ [] ∧ Idle s
  | some (.writing batch active) =>
      active ∈ s.handed ∧ active ⊆ batch ∧
      (∀ y ∈ batch, s.Holds y fun call =>
        (call.future = .pending ∧ y ∈ active) ∨ call.future = .cancelled) ∧
      ∀ x call, s.calls.get x = some call → call.future.done = false →
        (call.completion, x) ∈ s.pending ∨ (call.completion, x) ∈ batch
  | some (.done started) => (s.pending = [] ↔ started = true) ∧ Idle s

structure Inv (s : Sys ε) : Prop where
  core : Core s
  fits : Fits s s.task

theorem inv_init : Inv (.init : Sys ε) :=
  ⟨⟨.nil, nofun, nofun, nofun, nofun, nofun, nofun, nofun, nofun⟩, rfl, nofun⟩

/-! ## The loop -/

namespace Core

variable (h : Core s)
include h

theorem not_mem_pending (hy : y ∈ s.handed.flatten) : y ∉ s.pending := fun hp =>
  absurd ((List.pairwise_append.mp h.order).2.2 y hy y hp) (Nat.lt_irrefl _)

/-- An entry of the queue is active while its future is not done. -/
theorem active (hy : y ∈ s.pending) : s.Holds y fun call =>
    (call.future = .pending ∧ s.cancelled y = false) ∨
      (call.future = .cancelled ∧ call.withdrawn = true ∧ s.cancelled y = true) := by
  obtain ⟨call, hc, he, hf⟩ := h.queued y hy
  refine ⟨call, hc, he, ?_⟩
  rcases hf with hf | ⟨hf, hw⟩
  · exact Or.inl ⟨hf, by simp [Sys.cancelled, hc, hf, Future.isCancelled]⟩
  · exact Or.inr ⟨hf, hw, by simp [Sys.cancelled, hc, hf, Future.isCancelled]⟩

theorem drop {batch pending : List Entry} (hp : batch ++ pending = s.pending)
    (ha : ∀ y ∈ batch, s.cancelled y = true) : Core { s with pending := pending } where
  order := by
    refine h.order.sublist ?_
    rw [← hp]
    exact (List.Sublist.refl _).append (List.sublist_append_right _ _)
  bounded := by
    intro y hy
    refine h.bounded y ?_
    rw [← hp]
    rcases List.mem_append.mp hy with hy | hy
    · exact List.mem_append_left _ hy
    · exact List.mem_append_right _ (List.mem_append_right _ hy)
  queued := fun y hy => h.queued y (by rw [← hp]; exact List.mem_append_right _ hy)
  handed := h.handed
  answered := h.answered
  failed := h.failed
  waiting := h.waiting
  fate := h.fate
  delivered := by
    intro x call hc hw
    refine (h.delivered x call hc hw).imp_left fun hm => ?_
    obtain ⟨call', hc', -, hf⟩ := h.active hm
    cases hc.symm.trans hc'
    rw [← hp] at hm
    refine (List.mem_append.mp hm).resolve_left fun hb => ?_
    rcases hf with ⟨-, hf⟩ | ⟨-, hf, -⟩
    · exact Bool.noConfusion (hf.symm.trans (ha _ hb))
    · exact Bool.noConfusion (hf.symm.trans hw)

/-- A batch leaves the queue, and its entries whose callers are not cancelled are written. -/
theorem hand {batch pending : List Entry} (hp : batch ++ pending = s.pending)
    (hne : (batch.filter fun y => !s.cancelled y) ≠ []) (hlen : batch.length ≤ 256)
    (hnd : (batch.map (·.1.id)).Nodup) :
    Core { s with
      pending := pending
      handed := s.handed ++ [batch.filter fun y => !s.cancelled y] } where
  order := by
    refine h.order.sublist ?_
    rw [← hp, List.flatten_append, List.flatten_singleton, List.append_assoc]
    exact (List.Sublist.refl _).append (List.filter_sublist.append (List.Sublist.refl _))
  bounded := by
    intro y hy
    refine h.bounded y ?_
    rw [List.flatten_append, List.flatten_singleton, List.append_assoc] at hy
    rw [← hp]
    rcases List.mem_append.mp hy with hy | hy
    · exact List.mem_append_left _ hy
    · refine List.mem_append_right _ ((List.mem_append.mp hy).elim (fun hy => ?_) fun hy => ?_)
      · exact List.mem_append_left _ (List.mem_filter.mp hy).1
      · exact List.mem_append_right _ hy
  queued := fun y hy => h.queued y (by rw [← hp]; exact List.mem_append_right _ hy)
  handed := by
    intro b hb
    rcases List.mem_append.mp hb with hb | hb
    · exact h.handed b hb
    · cases List.mem_singleton.mp hb
      exact ⟨hne, (List.length_filter_le _ _).trans hlen, hnd.sublist (List.filter_sublist.map _)⟩
  answered := fun r hr => ⟨List.mem_append_left _ (h.answered r hr).1, (h.answered r hr).2⟩
  failed := h.failed
  waiting := h.waiting
  fate := h.fate
  delivered := by
    intro x call hc hw
    rcases h.delivered x call hc hw with hm | hm | hm
    · obtain ⟨call', hc', -, hf⟩ := h.active hm
      cases hc.symm.trans hc'
      rw [← hp] at hm
      rcases List.mem_append.mp hm with hb | hm
      · refine Or.inr (Or.inl ?_)
        rcases hf with ⟨-, hf⟩ | ⟨-, hf, -⟩
        · rw [List.flatten_append, List.flatten_singleton]
          exact List.mem_append_right _ (List.mem_filter.mpr ⟨hb, by simp [hf]⟩)
        · exact Bool.noConfusion (hf.symm.trans hw)
      · exact Or.inl hm
    · refine Or.inr (Or.inl ?_)
      rw [List.flatten_append]
      exact List.mem_append_left _ hm
    · exact Or.inr (Or.inr hm)

theorem task (task : Option Background) : Core { s with task := task } :=
  ⟨h.order, h.bounded, h.queued, h.handed, h.answered, h.failed, h.waiting, h.fate, h.delivered⟩

/-- The loop ends with an empty queue, or hands a batch to `write`. -/
theorem loop {n : ℕ} (hi : Idle s) (hn : s.pending.length ≤ n) : Inv (Sys.loop n s) := by
  induction n generalizing s with
  | zero =>
      have he : s.pending = [] := List.eq_nil_of_length_eq_zero (Nat.le_zero.mp hn)
      exact ⟨h.task _, ⟨fun _ => rfl, fun _ => he⟩, hi⟩
  | succ n ih =>
      unfold Sys.loop
      split
      · rename_i he
        exact ⟨h.task _, ⟨fun _ => rfl, fun _ => he⟩, hi⟩
      · rename_i hne
        cases hc : collect (fun y : Entry => y.1.id) 256 [] [] s.pending with
        | mk batch pending =>
            obtain ⟨hp, hlen, hnd, hlt⟩ := collect_spec (by decide) hne hc
            dsimp only
            split
            · rename_i ha
              have hcan : ∀ y ∈ batch, s.cancelled y = true := fun y hy => by
                simpa using List.filter_eq_nil_iff.mp ha y hy
              refine ih (h.drop hp hcan) (fun x call hg hd => ?_) (by dsimp only; omega)
              have hm := hi x call hg hd
              rw [← hp] at hm
              refine (List.mem_append.mp hm).resolve_left fun hb => ?_
              exact Bool.noConfusion (hd.symm.trans (Sys.done_of_cancelled hg (hcan _ hb)))
            · rename_i ha
              refine ⟨(h.hand hp ha hlen hnd).task _, List.mem_append_right _ List.mem_cons_self,
                fun y hy => (List.mem_filter.mp hy).1, fun y hy => ?_, fun x call hg hd => ?_⟩
              · refine (h.active (by rw [← hp]; exact List.mem_append_left _ hy)).imp fun call hf => ?_
                exact hf.imp (fun hf => ⟨hf.1, List.mem_filter.mpr ⟨hy, by simp [hf.2]⟩⟩) And.left
              · have hm := hi x call hg hd
                rw [← hp] at hm
                exact (List.mem_append.mp hm).symm

end Core

end Fronta.Completions
