import Fronta.Signals.Lemmas.Identity

/-!
# The invariant

A worker is judged dead when no process that made its id is left, and stays so: the ids that environments have
named are made by nobody else. The pidfd of a target refers to a process that had the pid of the walk, so what is
read under that pid belongs to it or it has been reaped.
-/

namespace Fronta.Signals

open Sql Unicode Codec

variable {hostname worker start : Text} {environ : Bytes} {n : ℕ} {p p' : Process} {x y : ProcessId} {s s' : Sys}
  {call : Call} {todo found : List (Pid × Bytes)} {pids : List Pid} {task : Task} {hit : Hit}

section

variable (hostname)

/-- Some environment has named the worker. -/
def Sys.Named (s : Sys) (worker : Text) : Prop := ∃ i, s.named.lookup worker = some i

/-- The worker was named by an environment, and has ended. -/
structure Doomed (s : Sys) (worker : Text) : Prop where
  clean : Clean worker
  judged : lookup hostname worker ≠ none
  named : s.Named worker
  gone : s.Gone hostname worker

/-- The owners of what the walk has found. -/
def Known (s : Sys) (found : List (Pid × Bytes)) : Prop :=
  ∀ e ∈ found, ∀ w, ownerOf e.2 = some w → s.Named w

structure Target.Ok (s : Sys) (task : Task) (target : Target) : Prop where
  worker : task = .scavengeOrphans → ∃ w, target.worker = some w
  doomed : ∀ w, target.worker = some w → Doomed hostname s w ∧ markerOf workerEnv w = some target.marker

def Stage.Ok (s : Sys) (task : Task) : Stage → Prop
  | .listing => True
  | .reading _ found => Known s found
  | .statting worker pid start todo =>
      (lookup hostname worker = some (pid, start) ∧ Clean worker ∧ s.Named worker) ∧ Known s todo
  | .probing worker pid todo =>
      ((∃ start, lookup hostname worker = some (pid, start)) ∧ Clean worker ∧ s.Named worker) ∧ Known s todo
  | .opening target todo => target.Ok hostname s task ∧ Known s todo
  | .checking target fd todo =>
      target.Ok hostname s task ∧ (∃ p, s.processes.get fd = some p ∧ p.pid = target.pid) ∧ Known s todo
  | .sending target fd checked environ todo =>
      target.Ok hostname s task ∧ target.marker <:+: environ ∧
        (checked = fd ∨ ∃ p, s.processes.get fd = some p ∧ p.life = .reaped) ∧ Known s todo
  | .returned => True
  | .raised => True

structure Call.Ok (s : Sys) (call : Call) : Prop where
  stage : call.stage.Ok hostname s call.task
  dead : ∀ w ∈ call.dead, Doomed hostname s w

structure Hit.Ok (s : Sys) (hit : Hit) : Prop where
  checked : hit.checked = hit.fd
  marked : hit.target.marker <:+: hit.environ
  target : hit.target.Ok hostname s hit.task

structure Sound (s : Sys) : Prop where
  unique : ∀ x y p q, s.processes.get x = some p → s.processes.get y = some q → p.life ≠ .reaped →
    q.life ≠ .reaped → p.pid = q.pid → x = y
  pid : ∀ x p, s.processes.get x = some p → 0 < p.pid ∧ p.pid ≤ maxPid
  owner : ∀ x p w, s.processes.get x = some p → ownerOf p.environ = some w → s.Named w
  issued : ∀ x p w, s.processes.get x = some p → w ∈ p.issued →
    lookup hostname w = none ∨ lookup hostname w = some (p.pid, digits p.start)
  bounded : ∀ e ∈ s.named, e.2 ≤ s.processes.next

structure Inv (s : Sys) : Prop where
  sound : Sound hostname s
  calls : ∀ c call, s.calls.get c = some call → call.Ok hostname s
  hits : ∀ h ∈ s.hits, h.Ok hostname s

end

/-- What no step takes back. -/
structure Later (hostname : Text) (s s' : Sys) : Prop where
  named : ∀ w i, s.named.lookup w = some i → s'.named.lookup w = some i
  gone : ∀ w, s.Named w → s.Gone hostname w → s'.Gone hostname w
  process : ∀ x p, s.processes.get x = some p →
    ∃ p', s'.processes.get x = some p' ∧ p'.pid = p.pid ∧ (p.life = .reaped → p'.life = .reaped)

theorem Later.of_eq (hp : s'.processes = s.processes) (hn : s'.named = s.named) : Later hostname s s' where
  named := fun w i hw => hn ▸ hw
  gone := fun w _ hg => by simpa only [Sys.Gone, Sys.There, hp, hn] using hg
  process := fun x p hx => ⟨p, hp ▸ hx, rfl, id⟩

theorem Later.keeps (hl : Later hostname s s') (h : s.Named worker) : s'.Named worker :=
  h.imp fun i hi => hl.named worker i hi

/-- The list has the names so far, and may have new ones behind them. -/
def Sys.Names (s : Sys) (l : List (Text × ProcessId)) : Prop :=
  ∃ l', l = s.named ++ l' ∧ ∀ e ∈ l', e.2 = s.processes.next

section

variable {l : List (Text × ProcessId)}

theorem names_self : s.Names s.named := ⟨[], by simp, nofun⟩

theorem names_naming : s.Names (s.naming environ) := by
  refine ⟨_, rfl, fun e he => ?_⟩
  obtain ⟨w, -, rfl⟩ := List.mem_map.mp he
  rfl

theorem Sys.Names.lookup (h : s.Names l) {i : ProcessId} (hw : s.named.lookup worker = some i) :
    l.lookup worker = some i := by
  obtain ⟨l', rfl, -⟩ := h
  simp [List.lookup_append, hw]

theorem Sys.Names.bounded (h : s.Names l) (hb : ∀ e ∈ s.named, e.2 ≤ s.processes.next) :
    ∀ e ∈ l, e.2 ≤ s.processes.next := by
  obtain ⟨l', rfl, hl'⟩ := h
  intro e he
  rcases List.mem_append.mp he with he | he
  · exact hb e he
  · exact Nat.le_of_eq (hl' e he)

theorem naming_owner (h : ownerOf environ = some worker) : ∃ i, (s.naming environ).lookup worker = some i := by
  cases hw : s.named.lookup worker with
  | none => simp [Sys.naming, List.lookup_append, hw, h]
  | some i => exact ⟨i, names_naming.lookup hw⟩

end

/-! ## Kept facts -/

theorem Doomed.later (hl : Later hostname s s') (h : Doomed hostname s worker) : Doomed hostname s' worker :=
  ⟨h.clean, h.judged, hl.keeps h.named, hl.gone _ h.named h.gone⟩

theorem Known.later (hl : Later hostname s s') (h : Known s found) : Known s' found :=
  fun e he w hw => hl.keeps (h e he w hw)

theorem Target.Ok.later {target : Target} (hl : Later hostname s s') (h : target.Ok hostname s task) :
    target.Ok hostname s' task :=
  ⟨h.worker, fun w hw => ⟨(h.doomed w hw).1.later hl, (h.doomed w hw).2⟩⟩

theorem Stage.Ok.later {stage : Stage} (hl : Later hostname s s') (h : stage.Ok hostname s task) :
    stage.Ok hostname s' task := by
  cases stage with
  | listing => trivial
  | reading pids found => exact Known.later hl h
  | statting worker pid start todo => exact ⟨⟨h.1.1, h.1.2.1, hl.keeps h.1.2.2⟩, h.2.later hl⟩
  | probing worker pid todo => exact ⟨⟨h.1.1, h.1.2.1, hl.keeps h.1.2.2⟩, h.2.later hl⟩
  | opening target todo => exact ⟨h.1.later hl, h.2.later hl⟩
  | checking target fd todo =>
      obtain ⟨ht, ⟨p, hp, hpid⟩, hk⟩ := h
      obtain ⟨p', hp', hpid', -⟩ := hl.process fd p hp
      exact ⟨ht.later hl, ⟨p', hp', hpid'.trans hpid⟩, hk.later hl⟩
  | sending target fd checked environ todo =>
      obtain ⟨ht, hm, hfd, hk⟩ := h
      refine ⟨ht.later hl, hm, hfd.imp_right ?_, hk.later hl⟩
      rintro ⟨p, hp, hlife⟩
      obtain ⟨p', hp', -, hlife'⟩ := hl.process fd p hp
      exact ⟨p', hp', hlife' hlife⟩
  | returned => trivial
  | raised => trivial

theorem Call.Ok.later (hl : Later hostname s s') (h : call.Ok hostname s) : call.Ok hostname s' :=
  ⟨h.stage.later hl, fun w hw => (h.dead w hw).later hl⟩

theorem Hit.Ok.later (hl : Later hostname s s') (h : hit.Ok hostname s) : hit.Ok hostname s' :=
  ⟨h.checked, h.marked, h.target.later hl⟩

theorem Inv.later (hi : Inv hostname s) (hl : Later hostname s s') (hs : Sound hostname s') (hc : s'.calls = s.calls)
    (hh : s'.hits = s.hits) : Inv hostname s' where
  sound := hs
  calls := fun c call h => (hi.calls c call (hc ▸ h)).later hl
  hits := fun h hm => (hi.hits h (hh ▸ hm)).later hl

/-! ## Holders -/

theorem holder_some (h : s.holder n = some (x, p)) :
    s.processes.get x = some p ∧ p.pid = n ∧ p.life ≠ .reaped := by
  obtain ⟨hx, hp⟩ := Table.get_of_find h
  exact ⟨hx, of_decide_eq_true hp⟩

theorem holder_none (h : s.holder n = none) (hx : s.processes.get x = some p) (hp : p.pid = n) :
    p.life = .reaped := by
  have := Table.find_eq_none.mp h x p hx
  by_contra hne
  simp [hp, hne] at this

/-- Nothing that is left has the pid and the start time: the worker is gone. -/
theorem Sound.gone (hs : Sound hostname s) (hl : lookup hostname worker = some (n, start))
    (h : ∀ x p, s.processes.get x = some p → p.pid = n → digits p.start = start → p.life = .reaped) :
    s.Gone hostname worker := by
  intro x p hx hw
  have hsome : lookup hostname worker = some (p.pid, digits p.start) :=
    hw.elim (fun hw => (hs.issued x p worker hx hw).resolve_left (by simp [hl])) And.left
  rw [hl, Option.some.injEq, Prod.mk.injEq] at hsome
  exact h x p hx hsome.1.symm hsome.2.symm

theorem Sound.gone_of_other (hs : Sound hostname s) (hl : lookup hostname worker = some (n, start))
    (hx : s.holder n = some (x, p)) (hne : digits p.start ≠ start) : s.Gone hostname worker := by
  obtain ⟨hget, hpid, hlife⟩ := holder_some hx
  refine hs.gone hl fun y q hy hq hstart => ?_
  by_contra hq'
  obtain rfl := hs.unique x y p q hget hy hlife hq' (hpid.trans hq.symm)
  rw [hget, Option.some.injEq] at hy
  exact hne (hy ▸ hstart)

theorem Sound.gone_of_none (hs : Sound hostname s) (hl : lookup hostname worker = some (n, start))
    (hx : s.holder n = none) : s.Gone hostname worker :=
  hs.gone hl fun _ _ hy hq _ => holder_none hx hy hq

/-! ## Calls -/

theorem Known.append (h : Known s found) {e : Pid × Bytes} (he : ∀ w, ownerOf e.2 = some w → s.Named w) :
    Known s (found ++ [e]) := by
  intro d hd
  rcases List.mem_append.mp hd with hd | hd
  · exact h d hd
  · rw [List.mem_singleton.mp hd]
    exact he

theorem loop_ok (hd : ∀ w ∈ call.dead, Doomed hostname s w) (hk : Known s todo) :
    (call.loop hostname todo).Ok hostname s := by
  induction todo generalizing call with
  | nil => exact ⟨trivial, hd⟩
  | cons e todo ih =>
      obtain ⟨hown, hrest⟩ := List.forall_mem_cons.mp hk
      obtain ⟨pid, environ⟩ := e
      unfold Call.loop
      cases htask : call.task with
      | signalMarked name value sig exclude =>
          simp only
          cases markerOf name value with
          | none => exact ⟨trivial, hd⟩
          | some m =>
              simp only
              split
              · exact ⟨⟨⟨by simp, nofun⟩, hrest⟩, hd⟩
              · exact ih hd hrest
      | scavengeOrphans =>
          simp only
          cases ho : ownerOf environ with
          | none => exact ih hd hrest
          | some owner =>
              simp only
              split
              · exact ih hd hrest
              · split
                · rename_i hdead
                  cases hm : markerOf workerEnv owner with
                  | none => exact ⟨trivial, hd⟩
                  | some m =>
                      refine ⟨⟨⟨fun _ => ⟨owner, rfl⟩, ?_⟩, hrest⟩, hd⟩
                      rintro w hw
                      cases hw
                      exact ⟨hd owner hdead, hm⟩
                · cases hl : lookup hostname owner with
                  | none => exact ih hd hrest
                  | some l => exact ⟨⟨⟨hl, ownerOf_clean ho, hown owner ho⟩, hk⟩, hd⟩

theorem walk_ok (hd : ∀ w ∈ call.dead, Doomed hostname s w) (hk : Known s found) :
    (call.walk hostname found pids).Ok hostname s := by
  cases pids with
  | nil => exact loop_ok hd hk
  | cons pid pids => exact ⟨hk, hd⟩

theorem judged_ok {verdict : Option Bool} (hd : ∀ w ∈ call.dead, Doomed hostname s w) (hk : Known s todo)
    (hv : verdict = some false → Doomed hostname s worker) :
    (call.judged hostname worker todo verdict).Ok hostname s := by
  unfold Call.judged
  split
  · rename_i hverdict
    exact loop_ok (List.forall_mem_cons.mpr ⟨hv hverdict, hd⟩) hk
  · exact loop_ok hd hk

end Fronta.Signals
