import Fronta.Signals.Lemmas.Invariant

/-!
# Every step keeps the invariant
-/

namespace Fronta.Signals

open Sql Unicode Codec

variable {hostname worker : Text} {environ : Bytes} {pid : Pid} {p p' : Process} {x c : ℕ} {s s' : Sys}
  {call call' : Call} {hits : List Hit} {stat : Stat} {action : Action}

/-! ## System calls -/

theorem Sound.read_known (hs : Sound hostname s) (hx : s.processes.get x = some p) :
    ∀ w, ownerOf p.read = some w → s.Named w := by
  intro w hw
  unfold Process.read at hw
  split at hw
  · exact hs.owner x p w hx hw
  · simp [ownerOf_nil] at hw

theorem go_ok (hs : Sound hostname s) (hc : call.Ok hostname s) (hg : s.go hostname call stat = some (call', hits)) :
    call'.Ok hostname s ∧ ∀ h ∈ hits, h.Ok hostname s := by
  have hstage := hc.stage
  unfold Sys.go at hg
  cases hst : call.stage with
  | listing => simp [hst] at hg
  | returned => simp [hst] at hg
  | raised => simp [hst] at hg
  | reading pids found =>
      rw [hst] at hg hstage
      cases pids with
      | nil => cases hg
      | cons pid pids =>
          cases hh : s.holder pid with
          | none =>
              simp only [hh, Option.some.injEq, Prod.mk.injEq] at hg
              obtain ⟨rfl, rfl⟩ := hg
              exact ⟨walk_ok hc.dead hstage, nofun⟩
          | some r =>
              simp only [hh, Option.some.injEq, Prod.mk.injEq] at hg
              obtain ⟨rfl, rfl⟩ := hg
              exact ⟨walk_ok hc.dead (Known.append hstage (hs.read_known (holder_some hh).1)), nofun⟩
  | statting worker pid start todo =>
      rw [hst] at hg hstage
      obtain ⟨⟨hl, hclean, hnamed⟩, hk⟩ := hstage
      cases hh : s.holder pid with
      | none =>
          simp only [hh, Option.some.injEq, Prod.mk.injEq] at hg
          obtain ⟨rfl, rfl⟩ := hg
          exact ⟨⟨⟨⟨⟨start, hl⟩, hclean, hnamed⟩, hk⟩, hc.dead⟩, nofun⟩
      | some r =>
          simp only [hh, starttime_text, Option.some.injEq, Prod.mk.injEq] at hg
          obtain ⟨rfl, rfl⟩ := hg
          refine ⟨judged_ok hc.dead hk fun hv => ?_, nofun⟩
          have hne : digits r.2.start ≠ start := by simpa using hv
          exact ⟨hclean, by simp [hl], hnamed, hs.gone_of_other hl hh hne⟩
  | probing worker pid todo =>
      rw [hst] at hg hstage
      obtain ⟨⟨⟨start, hl⟩, hclean, hnamed⟩, hk⟩ := hstage
      simp only at hg
      split at hg
      · simp only [Option.some.injEq, Prod.mk.injEq] at hg
        obtain ⟨rfl, rfl⟩ := hg
        exact ⟨⟨trivial, hc.dead⟩, nofun⟩
      · cases hh : s.holder pid with
        | none =>
            simp only [hh, Option.some.injEq, Prod.mk.injEq] at hg
            obtain ⟨rfl, rfl⟩ := hg
            exact ⟨judged_ok hc.dead hk fun _ => ⟨hclean, by simp [hl], hnamed, hs.gone_of_none hl hh⟩, nofun⟩
        | some r =>
            simp only [hh, Option.some.injEq, Prod.mk.injEq] at hg
            obtain ⟨rfl, rfl⟩ := hg
            exact ⟨judged_ok hc.dead hk nofun, nofun⟩
  | opening target todo =>
      rw [hst] at hg hstage
      cases hh : s.holder target.pid with
      | none =>
          simp only [hh, Option.some.injEq, Prod.mk.injEq] at hg
          obtain ⟨rfl, rfl⟩ := hg
          exact ⟨loop_ok hc.dead hstage.2, nofun⟩
      | some r =>
          simp only [hh, Option.some.injEq, Prod.mk.injEq] at hg
          obtain ⟨rfl, rfl⟩ := hg
          obtain ⟨hx, hpid, -⟩ := holder_some hh
          exact ⟨⟨⟨hstage.1, ⟨r.2, hx, hpid⟩, hstage.2⟩, hc.dead⟩, nofun⟩
  | checking target fd todo =>
      rw [hst] at hg hstage
      obtain ⟨ht, ⟨q, hq, hqpid⟩, hk⟩ := hstage
      cases hh : s.holder target.pid with
      | none =>
          simp only [hh, Option.some.injEq, Prod.mk.injEq] at hg
          obtain ⟨rfl, rfl⟩ := hg
          exact ⟨loop_ok hc.dead hk, nofun⟩
      | some r =>
          simp only [hh] at hg
          obtain ⟨hx, hpid, hlife⟩ := holder_some hh
          split at hg
          · rename_i hm
            simp only [Option.some.injEq, Prod.mk.injEq] at hg
            obtain ⟨rfl, rfl⟩ := hg
            -- the pid belongs to one process: the target, or it has been reaped
            have hfd : r.1 = fd ∨ ∃ q, s.processes.get fd = some q ∧ q.life = .reaped := by
              by_cases hlq : q.life = .reaped
              · exact Or.inr ⟨q, hq, hlq⟩
              · exact Or.inl (hs.unique r.1 fd r.2 q hx hq hlife hlq (hpid.trans hqpid.symm))
            exact ⟨⟨⟨ht, hm, hfd, hk⟩, hc.dead⟩, nofun⟩
          · simp only [Option.some.injEq, Prod.mk.injEq] at hg
            obtain ⟨rfl, rfl⟩ := hg
            exact ⟨loop_ok hc.dead hk, nofun⟩
  | sending target fd checked environ todo =>
      rw [hst] at hg hstage
      obtain ⟨ht, hm, hfd, hk⟩ := hstage
      simp only at hg
      split at hg
      · rename_i hrun
        simp only [Option.some.injEq, Prod.mk.injEq] at hg
        obtain ⟨rfl, rfl⟩ := hg
        refine ⟨loop_ok hc.dead hk, fun h hh => ?_⟩
        obtain rfl := List.mem_singleton.mp hh
        -- a stale check concerns a process that the signal does not reach
        refine ⟨hfd.resolve_right ?_, hm, ht⟩
        rintro ⟨q, hq, hlife⟩
        simp [hq, hlife] at hrun
      · simp only [Option.some.injEq, Prod.mk.injEq] at hg
        obtain ⟨rfl, rfl⟩ := hg
        exact ⟨loop_ok hc.dead hk, nofun⟩
      · simp only [Option.some.injEq, Prod.mk.injEq] at hg
        obtain ⟨rfl, rfl⟩ := hg
        exact ⟨loop_ok hc.dead hk, nofun⟩

theorem fail_ok (hc : call.Ok hostname s) (hf : Sys.fail hostname call = some call') : call'.Ok hostname s := by
  have hstage := hc.stage
  unfold Sys.fail at hf
  cases hst : call.stage with
  | listing =>
      simp only [hst, Option.some.injEq] at hf
      exact hf ▸ loop_ok hc.dead nofun
  | returned => simp [hst] at hf
  | raised => simp [hst] at hf
  | reading pids found =>
      rw [hst] at hf hstage
      cases pids with
      | nil => cases hf
      | cons pid pids => exact Option.some.inj hf ▸ walk_ok hc.dead hstage
  | statting worker pid start todo =>
      rw [hst] at hf hstage
      obtain ⟨⟨hl, hclean, hnamed⟩, hk⟩ := hstage
      exact Option.some.inj hf ▸ ⟨⟨⟨⟨start, hl⟩, hclean, hnamed⟩, hk⟩, hc.dead⟩
  | probing worker pid todo =>
      rw [hst] at hf hstage
      simp only at hf
      split at hf
      · cases hf
      · exact Option.some.inj hf ▸ judged_ok hc.dead hstage.2 nofun
  | opening target todo =>
      rw [hst] at hf hstage
      exact Option.some.inj hf ▸ loop_ok hc.dead hstage.2
  | checking target fd todo =>
      rw [hst] at hf hstage
      exact Option.some.inj hf ▸ loop_ok hc.dead hstage.2.2
  | sending target fd checked environ todo =>
      rw [hst] at hf hstage
      exact Option.some.inj hf ▸ loop_ok hc.dead hstage.2.2.2

/-! ## Processes -/

theorem get_setProcess {y : ProcessId} {q : Process} (h : (s.setProcess x p').processes.get y = some q) :
    (y = x ∧ q = p') ∨ s.processes.get y = some q := by
  rcases Table.get_modify_cases h with ⟨-, hq⟩ | ⟨hy, -, -, hq⟩
  · exact Or.inr hq
  · exact Or.inl ⟨hy, hq⟩

theorem get_setProcess_self (hx : s.processes.get x = some p) : (s.setProcess x p').processes.get x = some p' := by
  simp [Sys.setProcess, hx]

theorem get_setProcess_of_ne {y : ProcessId} (hy : y ≠ x) :
    (s.setProcess x p').processes.get y = s.processes.get y := by
  simp [Sys.setProcess, Table.get_modify, hy]

/-- A process goes on under its pid. -/
structure Successor (hostname : Text) (s s' : Sys) (p p' : Process) : Prop where
  pid : p'.pid = p.pid
  start : p'.start = p.start
  life : p.life = .reaped → p'.life = .reaped
  owner : ∀ w, ownerOf p'.environ = some w → s'.Named w
  issued : ∀ w ∈ p'.issued, w ∈ p.issued ∨
    (¬ s.Named w ∧ (lookup hostname w = none ∨ lookup hostname w = some (p.pid, digits p.start)))
  names : s.Names s'.named

theorem Successor.later (h : Successor hostname s s' p p') (hx : s.processes.get x = some p)
    (hp : s'.processes = (s.setProcess x p').processes) : Later hostname s s' where
  named := fun w i hw => h.names.lookup hw
  gone := by
    rintro w ⟨i, hi⟩ hg y q hy hq
    have hthere : s'.There y w → s.There y w := by
      rintro ⟨j, hj, hlt⟩
      rw [h.names.lookup hi] at hj
      exact ⟨i, hi, Option.some.inj hj ▸ hlt⟩
    rw [hp] at hy
    rcases get_setProcess hy with ⟨rfl, rfl⟩ | hy
    · rw [h.pid, h.start] at hq
      exact h.life (hg y p hx
        (hq.imp (fun hw => (h.issued w hw).resolve_right fun hn => hn.1 ⟨i, hi⟩) (And.imp_right hthere)))
    · exact hg y q hy (hq.imp_right (And.imp_right hthere))
  process := by
    intro y q hy
    rw [hp]
    by_cases he : y = x
    · subst he
      rw [hx, Option.some.injEq] at hy
      subst hy
      exact ⟨p', get_setProcess_self hx, h.pid, h.life⟩
    · exact ⟨q, by rw [get_setProcess_of_ne he, hy], rfl, id⟩

theorem Successor.sound (h : Successor hostname s s' p p') (hs : Sound hostname s)
    (hx : s.processes.get x = some p) (hp : s'.processes = (s.setProcess x p').processes) : Sound hostname s' := by
  -- each process was there before, under the same pid
  have hold : ∀ y q, s'.processes.get y = some q → ∃ q₀, s.processes.get y = some q₀ ∧ q.pid = q₀.pid ∧
      (q.life ≠ .reaped → q₀.life ≠ .reaped) := by
    intro y q hy
    rw [hp] at hy
    rcases get_setProcess hy with ⟨rfl, rfl⟩ | hy
    · exact ⟨p, hx, h.pid, mt h.life⟩
    · exact ⟨q, hy, rfl, id⟩
  constructor
  · intro y z q r hy hz hq hr hpid
    obtain ⟨q₀, hq₀, hqpid, hqlife⟩ := hold y q hy
    obtain ⟨r₀, hr₀, hrpid, hrlife⟩ := hold z r hz
    exact hs.unique y z q₀ r₀ hq₀ hr₀ (hqlife hq) (hrlife hr) (hqpid ▸ hrpid ▸ hpid)
  · intro y q hy
    obtain ⟨q₀, hq₀, hqpid, -⟩ := hold y q hy
    exact hqpid ▸ hs.pid y q₀ hq₀
  · intro y q w hy hw
    rw [hp] at hy
    rcases get_setProcess hy with ⟨rfl, rfl⟩ | hy
    · exact h.owner w hw
    · exact (hs.owner y q w hy hw).imp fun i hi => h.names.lookup hi
  · intro y q w hy hw
    rw [hp] at hy
    rcases get_setProcess hy with ⟨rfl, rfl⟩ | hy
    · rw [h.pid, h.start]
      exact (h.issued w hw).elim (hs.issued y p w hx) And.right
    · exact hs.issued y q w hy hw
  · rw [hp]
    exact h.names.bounded hs.bounded

theorem Inv.replace (hi : Inv hostname s) (hx : s.processes.get x = some p)
    (hp : s'.processes = (s.setProcess x p').processes) (h : Successor hostname s s' p p')
    (hc : s'.calls = s.calls) (hh : s'.hits = s.hits) : Inv hostname s' :=
  hi.later (h.later hx hp) (h.sound hi.sound hx hp) hc hh

/-- A new process takes a pid that no other one has. -/
theorem Inv.spawn (hi : Inv hostname s) (hpos : 0 < pid) (hmax : pid ≤ maxPid) (hfree : s.holder pid = none) :
    Inv hostname { s with
      processes := s.processes.insert { pid := pid, start := s.clock, environ := environ }
      named := s.naming environ } := by
  refine hi.later ⟨fun w i hw => names_naming.lookup hw, ?_, ?_⟩ ⟨?_, ?_, ?_, ?_, ?_⟩ rfl rfl
  · rintro w ⟨i, hw⟩ hg y q hy hq
    have hthere : ∀ j, (s.naming environ).lookup w = some j → j = i := fun j hj => by
      rw [names_naming.lookup hw] at hj
      exact (Option.some.inj hj).symm
    rcases Table.get_insert_cases hy with ⟨rfl, rfl⟩ | hy
    · rcases hq with hq | ⟨-, j, hj, hlt⟩
      · cases hq
      · obtain ⟨l₁, l₂, hl, -⟩ := List.lookup_eq_some_iff.mp hw
        have hle := hi.sound.bounded (w, i) (hl ▸ List.mem_append_right _ List.mem_cons_self)
        obtain rfl := hthere j hj
        exact absurd hlt (Nat.not_lt.mpr hle)
    · refine hg y q hy (hq.imp_right (And.imp_right ?_))
      rintro ⟨j, hj, hlt⟩
      exact ⟨i, hw, hthere j hj ▸ hlt⟩
  · intro y q hy
    exact ⟨q, Table.get_insert_of_get hy, rfl, id⟩
  · intro y z q r hy hz hq hr hpid
    rcases Table.get_insert_cases hy with ⟨rfl, rfl⟩ | hy <;> rcases Table.get_insert_cases hz with ⟨rfl, rfl⟩ | hz
    · rfl
    · exact absurd (holder_none hfree hz hpid.symm) hr
    · exact absurd (holder_none hfree hy hpid) hq
    · exact hi.sound.unique y z q r hy hz hq hr hpid
  · intro y q hy
    rcases Table.get_insert_cases hy with ⟨-, rfl⟩ | hy
    · exact ⟨hpos, hmax⟩
    · exact hi.sound.pid y q hy
  · intro y q w hy hw
    rcases Table.get_insert_cases hy with ⟨-, rfl⟩ | hy
    · exact naming_owner hw
    · exact (hi.sound.owner y q w hy hw).imp fun i hi => names_naming.lookup hi
  · intro y q w hy hw
    rcases Table.get_insert_cases hy with ⟨-, rfl⟩ | hy
    · cases hw
    · exact hi.sound.issued y q w hy hw
  · exact fun e he => Nat.le_succ_of_le (names_naming.bounded hi.sound.bounded e he)

/-! ## Steps -/

theorem start_ok {task : Task} {own : Text} : (Call.start task own).Ok hostname s := by
  refine ⟨?_, nofun⟩
  cases task with
  | signalMarked name value sig exclude =>
      simp only [Call.start]
      split <;> trivial
  | scavengeOrphans => trivial

theorem Inv.setCall (hi : Inv hostname s) (hc : call'.Ok hostname s) : Inv hostname (s.setCall c call') := by
  have hl : Later hostname s (s.setCall c call') := Later.of_eq rfl rfl
  refine ⟨⟨hi.sound.unique, hi.sound.pid, hi.sound.owner, hi.sound.issued, hi.sound.bounded⟩, ?_,
    fun h hm => (hi.hits h hm).later hl⟩
  intro d e hd
  obtain ⟨e₀, he₀, ⟨-, rfl⟩ | he⟩ := Table.get_update_cases hd
  · exact (hi.calls d e he₀).later hl
  · split at he
    · exact Option.some.inj he ▸ hc.later hl
    · cases he

theorem Inv.record (hi : Inv hostname s) (hh : ∀ h ∈ hits, h.Ok hostname s) :
    Inv hostname { s with hits := s.hits ++ hits } := by
  have hl : Later hostname s { s with hits := s.hits ++ hits } := Later.of_eq rfl rfl
  refine ⟨⟨hi.sound.unique, hi.sound.pid, hi.sound.owner, hi.sound.issued, hi.sound.bounded⟩,
    fun d e hd => (hi.calls d e hd).later hl, fun h hm => ?_⟩
  rcases List.mem_append.mp hm with hm | hm
  · exact (hi.hits h hm).later hl
  · exact (hh h hm).later hl

theorem Inv.init : Inv hostname .init := by
  refine ⟨⟨?_, ?_, ?_, ?_, ?_⟩, ?_, ?_⟩ <;> simp [Sys.init]

/-- An id that a process makes names it. -/
theorem lookup_issued (hs : Sound hostname s) (hx : s.processes.get x = some p) (stat : Option Stat)
    (uuid : BitVec 128) :
    lookup hostname (workerId hostname p.pid (stat.bind fun stat => starttime (stat.text p)) uuid) = none ∨
      lookup hostname (workerId hostname p.pid (stat.bind fun stat => starttime (stat.text p)) uuid) =
        some (p.pid, digits p.start) := by
  cases stat with
  | none => exact Or.inl lookup_nonce
  | some stat =>
      rw [Option.bind_some, starttime_text]
      exact Or.inr (lookup_workerId (hs.pid x p hx).1 (hs.pid x p hx).2)

theorem Inv.step (hi : Inv hostname s) (h : s.step hostname action = some s') : Inv hostname s' := by
  cases action with
  | spawn pid environ =>
      simp only [Sys.step] at h
      split at h
      · rename_i hg
        exact Option.some.inj h ▸ hi.spawn hg.1 hg.2.1 hg.2.2
      · cases h
  | exec x environ =>
      simp only [Sys.step] at h
      split at h
      · rename_i p hx
        split at h
        · cases h
          exact hi.replace hx rfl ⟨rfl, rfl, id, fun w hw => naming_owner hw, fun w hw => Or.inl hw,
            names_naming⟩ rfl rfl
        · cases h
      · cases h
  | exit x =>
      simp only [Sys.step] at h
      split at h
      · rename_i p hx
        split at h
        · rename_i hrun
          cases h
          exact hi.replace hx rfl ⟨rfl, rfl, by simp [hrun], fun w hw => hi.sound.owner x p w hx hw,
            fun w hw => Or.inl hw, names_self⟩ rfl rfl
        · cases h
      · cases h
  | reap x =>
      simp only [Sys.step] at h
      split at h
      · rename_i p hx
        split at h
        · cases h
          exact hi.replace hx rfl ⟨rfl, rfl, fun _ => rfl, fun w hw => hi.sound.owner x p w hx hw,
            fun w hw => Or.inl hw, names_self⟩ rfl rfl
        · cases h
      · cases h
  | tick =>
      cases h
      exact hi.later (Later.of_eq rfl rfl)
        ⟨hi.sound.unique, hi.sound.pid, hi.sound.owner, hi.sound.issued, hi.sound.bounded⟩ rfl rfl
  | workerId x stat uuid =>
      simp only [Sys.step] at h
      split at h
      · rename_i p hx
        split at h
        · rename_i hg
          cases h
          refine hi.replace hx rfl ⟨rfl, rfl, id, fun w hw => hi.sound.owner x p w hx hw, ?_, names_self⟩ rfl rfl
          intro w hw
          rcases List.mem_cons.mp hw with rfl | hw
          · refine Or.inr ⟨?_, lookup_issued hi.sound hx stat uuid⟩
            rintro ⟨i, hi⟩
            rw [hg.2] at hi
            cases hi
          · exact Or.inl hw
        · cases h
      · cases h
  | call task own =>
      cases h
      have hl : Later hostname s { s with calls := s.calls.insert (Call.start task own) } := Later.of_eq rfl rfl
      refine ⟨⟨hi.sound.unique, hi.sound.pid, hi.sound.owner, hi.sound.issued, hi.sound.bounded⟩, ?_,
        fun h hm => (hi.hits h hm).later hl⟩
      intro c call hc
      rcases Table.get_insert_cases hc with ⟨-, rfl⟩ | hc
      · exact start_ok
      · exact (hi.calls c call hc).later hl
  | list c pids =>
      simp only [Sys.step] at h
      split at h
      · rename_i call hc
        split at h
        · cases h
          exact hi.setCall (walk_ok (hi.calls c call hc).dead nofun)
        · cases h
      · cases h
  | go c stat =>
      simp only [Sys.step] at h
      split at h
      · rename_i call hc
        obtain ⟨⟨call', hits⟩, hg, rfl⟩ := Option.map_eq_some_iff.mp h
        obtain ⟨hok, hhits⟩ := go_ok hi.sound (hi.calls c call hc) hg
        have hl : Later hostname s (s.setCall c call') := Later.of_eq rfl rfl
        exact (hi.setCall hok).record fun h hm => (hhits h hm).later hl
      · cases h
  | fails c =>
      simp only [Sys.step] at h
      split at h
      · rename_i call hc
        obtain ⟨call', hf, rfl⟩ := Option.map_eq_some_iff.mp h
        exact hi.setCall (fail_ok (hi.calls c call hc) hf)
      · cases h

end Fronta.Signals
