import Fronta.Server.Lemmas.Limit

/-!
# The body limit over every run

The application is free in its calls. `Conforming` says for which of them the limit holds.
-/

namespace Fronta.Server

open Runs

variable {json : JSONResponse} {limit : ℕ} {scope : Scope} {incoming : List Message} {s : Sys}
  {actions : List Action}

/-- What the middleware is for: the application gets no more than the limit, one response is started, none of
success once the excess is seen, and a request within the limit passes as if the middleware were not there. -/
structure Limited (limit : ℕ) (scope : Scope) (incoming : List Message) (log : List Event) : Prop where
  handed : total (handed log) ≤ limit
  once : starts (sent log) ≤ 1
  refused : ∀ before after status headers, log = before ++ .sent (.start status headers) :: after →
    limit < total (received before) ∨ scope.admission limit = .refused → status = 413
  through : total incoming ≤ limit →
    .called ∈ log ∧ Server.handed log = received log ∧ sent log = sends log ∧ returned log = ended log

/-- The declared length turns away no request within the limit. The application starts at most one response,
none before the chunk that goes over the limit, and takes no more after this chunk than what was left. -/
structure Conforming (limit : ℕ) (scope : Scope) (incoming : List Message) (calls : List Event) : Prop where
  called : total incoming ≤ limit → scope.admission limit = .called
  once : total (received calls) ≤ limit → starts (sends calls) ≤ 1
  exceeding : ∀ before message after, calls = before ++ .received message :: after →
    total (received before) ≤ limit → limit < total (received before) + message.bytes →
    starts (sends before) = 0 ∧ total (received before) + total (received after) ≤ limit

/-- The chunk that goes over the limit is the first one that does. -/
theorem over_unique {before before' after after' : List Event} {message message' : Message}
    (heq : before ++ .received message :: after = before' ++ .received message' :: after')
    (hle : total (received before) ≤ limit) (hlt : limit < total (received before) + message.bytes)
    (hle' : total (received before') ≤ limit) (hlt' : limit < total (received before') + message'.bytes) :
    before = before' ∧ after = after' := by
  rcases List.append_eq_append_iff.mp heq with ⟨l, rfl, hl⟩ | ⟨l, rfl, hl⟩
  · cases l with
    | nil => simp_all
    | cons e l =>
        simp only [List.cons_append, List.cons.injEq] at hl
        obtain ⟨rfl, -⟩ := hl
        simp [received, total] at hle' hlt
        omega
  · cases l with
    | nil => simp_all
    | cons e l =>
        simp only [List.cons_append, List.cons.injEq] at hl
        obtain ⟨rfl, -⟩ := hl
        simp [received, total] at hle hlt'
        omega

theorem Within.run (h : Within limit s) {s' : Sys} (hr : run (Sys.step json limit) s actions = some s') :
    Within limit s' ∨ ∃ before message after, Over limit before message after s' := by
  refine Reachable.invariant (I := fun s => Within limit s ∨ ∃ before message after,
    Over limit before message after s) ⟨actions, hr⟩ (Or.inl h) ?_
  rintro s action s' (h | ⟨before, message, after, h⟩) hs
  · exact (h.step hs).imp_right fun ⟨message, h⟩ => ⟨_, message, [], h⟩
  · obtain ⟨after', h⟩ := h.step hs
    exact Or.inr ⟨before, message, after', h⟩

/-- The header decides in what state the run starts. -/
theorem call_cases (hscope : scope.type = "http") :
    (scope.admission limit = .called ∧ Within limit (Sys.call json limit scope incoming) ∧
        calls (Sys.call json limit scope incoming).log = []) ∨
      (scope.admission limit ≠ .called ∧ Refused (Sys.call json limit scope incoming)) := by
  simp only [Sys.call, hscope, if_true]
  cases hadm : scope.admission limit with
  | called =>
      refine Or.inl ⟨rfl, ?_, rfl⟩
      constructor <;> simp [Server.received, total, Server.handed, Server.sent, sends, Server.returned,
        Server.ended]
  | refused =>
      refine Or.inr ⟨by simp, ?_⟩
      constructor <;> simp [Sys.startReply, Response.isStart, Server.handed, Server.calls, Server.sent, starts]
  | raises =>
      refine Or.inr ⟨by simp, ?_⟩
      constructor <;> simp [Server.handed, Server.calls, Server.sent, starts]

theorem call_incoming : (Sys.call json limit scope incoming).incoming = incoming := by
  simp only [Sys.call]
  split
  · split <;> rfl
  · rfl

/-- While nothing has gone over the limit, the responses that the application starts decide. -/
theorem Within.limited_iff (h : Within limit s) (hadm : scope.admission limit = .called) :
    Limited limit scope incoming s.log ↔ Conforming limit scope incoming (Server.calls s.log) := by
  have hle := h.seen ▸ h.le
  constructor
  · intro hl
    constructor
    · exact fun _ => hadm
    · intro _
      rw [sends_calls, ← h.sent]
      exact hl.once
    · intro before message after heq _ hlt
      rw [← received_calls, heq] at hle
      simp [received, total] at hle hlt
      omega
  · intro hc
    constructor
    · rwa [h.handed]
    · rw [h.sent, ← sends_calls]
      exact hc.once (by rwa [received_calls])
    · intro before after status headers heq hex
      rcases hex with hex | hex
      · exact quiet_of_total hle before after status headers heq hex
      · simp [hadm] at hex
    · exact fun _ => ⟨h.mem, h.handed, h.sent, h.returned⟩

/-- Once the limit is passed, the calls before and after decide. -/
theorem Over.limited_iff {before after : List Event} {message : Message} (h : Over limit before message after s)
    (hadm : scope.admission limit = .called) (hin : total (received s.log) ≤ total incoming) :
    Limited limit scope incoming s.log ↔ Conforming limit scope incoming (Server.calls s.log) := by
  have hlt := h.lt_seen
  rw [h.seen] at hlt
  constructor
  · intro hl
    constructor
    · exact fun _ => hadm
    · intro hle
      rw [received_calls] at hle
      omega
    · intro before' message' after' heq hle' hlt'
      obtain ⟨rfl, rfl⟩ := over_unique (h.calls.symm.trans heq) h.le h.lt hle' hlt'
      have honce := hl.once
      rw [h.sent] at honce
      exact ⟨by omega, h.handed ▸ hl.handed⟩
  · intro hc
    obtain ⟨hstarts, hle⟩ := hc.exceeding before message after h.calls h.le h.lt
    constructor
    · rwa [h.handed]
    · exact Nat.le_of_eq (h.sent.trans (by rw [hstarts]))
    · intro before after status headers heq hex
      rcases hex with hex | hex
      · exact h.quiet before after status headers heq hex
      · simp [hadm] at hex
    · intro hle
      omega

/-- A request turned away at its header gets one response, the refusal. -/
theorem Refused.limited_iff (h : Refused s) (hadm : scope.admission limit ≠ .called) :
    Limited limit scope incoming s.log ↔ Conforming limit scope incoming (Server.calls s.log) := by
  constructor
  · intro hl
    constructor
    · exact fun hle => absurd (hl.through hle).1 h.mem
    · simp [h.calls, sends, starts]
    · simp [h.calls]
  · intro hc
    constructor
    · simp [h.handed, total]
    · exact h.sent
    · intro before after status headers heq _
      exact h.status status headers (by simp [heq])
    · exact fun hle => absurd (hc.called hle) hadm

/-- Over every run of every application, the limit holds if and only if the request and the application
conform to it. -/
theorem limited_iff_conforming (hscope : scope.type = "http")
    (hr : run (Sys.step json limit) (Sys.call json limit scope incoming) actions = some s) :
    Limited limit scope incoming s.log ↔ Conforming limit scope incoming (trace actions incoming) := by
  have htrace := run_trace hr
  rw [call_incoming] at htrace
  rcases @call_cases json limit scope incoming hscope with ⟨hadm, hw, hcalls⟩ | ⟨hadm, hrefused⟩
  · rw [hcalls, List.nil_append] at htrace
    rw [← htrace]
    have hin : total (received s.log) ≤ total incoming := by
      rw [← received_calls, htrace]
      exact total_trace_le actions incoming
    rcases hw.run hr with hw | ⟨before, message, after, ho⟩
    · exact hw.limited_iff hadm
    · exact ho.limited_iff hadm hin
  · rw [hrefused.calls, List.nil_append] at htrace
    rw [← htrace]
    have h : Refused s := Reachable.invariant ⟨actions, hr⟩ hrefused fun _ _ _ h hs => h.step hs
    exact h.limited_iff hadm

section Runs

/-- `JSONResponse` where nothing in the detail is escaped. -/
def plainJson : JSONResponse := fun _ detail =>
  let body := ("\x7b\"detail\":\"" ++ detail ++ "\"\x7d").toUTF8.toList
  ([("content-length".toUTF8.toList, (toString body.length).toUTF8.toList),
    ("content-type".toUTF8.toList, "application/json".toUTF8.toList)], body)

/-- The application answers after the chunk that goes over the limit, and its answer is dropped. -/
theorem limited_refused : ∃ s, run (Sys.step plainJson 3)
      (Sys.call plainJson 3 ⟨"http", []⟩ [.request (some [1, 2]) true, .request (some [3, 4]) false])
      [.receive, .receive, .reply, .send (.start 200 []), .finish .raised] = some s ∧
    Limited 3 ⟨"http", []⟩ [.request (some [1, 2]) true, .request (some [3, 4]) false] s.log := by
  obtain ⟨s, hs⟩ : ∃ s, run (Sys.step plainJson 3)
      (Sys.call plainJson 3 ⟨"http", []⟩ [.request (some [1, 2]) true, .request (some [3, 4]) false])
      [.receive, .receive, .reply, .send (.start 200 []), .finish .raised] = some s := ⟨_, rfl⟩
  refine ⟨s, hs, (limited_iff_conforming rfl hs).mpr ?_⟩
  constructor
  · decide
  · decide
  · intro before message after heq hle hlt
    match before, heq with
    | [], heq =>
        simp only [trace, List.nil_append, List.cons.injEq, Event.received.injEq] at heq
        obtain ⟨rfl, rfl⟩ := heq
        exact absurd hlt (by decide)
    | [_], heq =>
        simp only [trace, List.cons_append, List.nil_append, List.cons.injEq, Event.received.injEq] at heq
        obtain ⟨rfl, rfl, rfl⟩ := heq
        decide
    | _ :: _ :: before, heq =>
        simp only [trace, List.cons_append, List.cons.injEq] at heq
        obtain ⟨rfl, rfl, -⟩ := heq
        simp [received, total, Message.bytes] at hle
        omega

/-- An application that has started its response and receives again after the refusal: two responses are
started, and four bytes are handed over a limit of three. -/
theorem answering_application_is_not_limited : ∃ s, run (Sys.step plainJson 3)
      (Sys.call plainJson 3 ⟨"http", []⟩
        [.request (some [1, 2, 3, 4]) true, .request (some [5, 6, 7, 8]) false])
      [.send (.start 200 []), .receive, .reply, .receive] = some s ∧
    starts (sent s.log) = 2 ∧ total (handed s.log) = 4 ∧
    ¬ Limited 3 ⟨"http", []⟩ [.request (some [1, 2, 3, 4]) true, .request (some [5, 6, 7, 8]) false] s.log := by
  refine ⟨_, rfl, rfl, rfl, ?_⟩
  intro h
  exact absurd h.once (by decide)

end Runs

end Fronta.Server
