import Fronta.Server.BodyLimit

/-!
# The two phases of a limited application

Up to the chunk that goes over the limit everything passes; from then on only the messages of `_reply` and
what the server still delivers.
-/

namespace Fronta.Server

open Runs

variable {json : JSONResponse} {limit : ℕ} {s s' : Sys} {action : Action} {actions : List Action}
  {log es before after : List Event}

/-! ## Logs -/

@[simp] theorem received_append : received (log ++ es) = received log ++ received es := List.filterMap_append

@[simp] theorem handed_append : handed (log ++ es) = handed log ++ handed es := List.filterMap_append

@[simp] theorem sends_append : sends (log ++ es) = sends log ++ sends es := List.filterMap_append

@[simp] theorem sent_append : sent (log ++ es) = sent log ++ sent es := List.filterMap_append

@[simp] theorem ended_append : ended (log ++ es) = ended log ++ ended es := List.filterMap_append

@[simp] theorem returned_append : returned (log ++ es) = returned log ++ returned es := List.filterMap_append

@[simp] theorem calls_append : calls (log ++ es) = calls log ++ calls es := List.filter_append _ _

@[simp] theorem total_append {ms ns : List Message} : total (ms ++ ns) = total ms + total ns := by simp [total]

@[simp] theorem starts_append {rs qs : List Response} : starts (rs ++ qs) = starts rs + starts qs := by
  simp [starts]

theorem received_calls (log : List Event) : received (calls log) = received log := by
  induction log with
  | nil => rfl
  | cons e log ih => cases e <;> simp_all [received, calls]

theorem sends_calls (log : List Event) : sends (calls log) = sends log := by
  induction log with
  | nil => rfl
  | cons e log ih => cases e <;> simp_all [sends, calls]

/-- From the excess on, the only response that is started is the refusal. -/
def Quiet (limit : ℕ) (log : List Event) : Prop :=
  ∀ before after status headers, log = before ++ .sent (.start status headers) :: after →
    limit < total (received before) → status = 413

theorem quiet_of_total (h : total (received log) ≤ limit) : Quiet limit log := by
  rintro before after status headers rfl hlt
  simp only [received_append, total_append] at h
  omega

theorem Quiet.append (h : Quiet limit log)
    (hes : ∀ status headers, .sent (.start status headers) ∈ es → status = 413) : Quiet limit (log ++ es) := by
  intro before after status headers heq hlt
  rcases List.append_eq_append_iff.mp heq with ⟨l, -, rfl⟩ | ⟨l, rfl, hl⟩
  · exact hes status headers (by simp)
  · cases l with
    | nil =>
        rw [List.nil_append] at hl
        exact hes status headers (by simp [← hl])
    | cons e l =>
        simp only [List.cons_append, List.cons.injEq] at hl
        obtain ⟨rfl, -⟩ := hl
        exact h before l status headers rfl hlt

/-! ## Steps -/

/-- Nothing has gone over the limit. -/
structure Within (limit : ℕ) (s : Sys) : Prop where
  called : s.called = true
  mem : .called ∈ s.log
  limited : s.limited = true
  rejected : s.rejected = false
  replying : s.replying = none
  seen : s.seen = total (received s.log)
  le : s.seen ≤ limit
  handed : handed s.log = received s.log
  sent : sent s.log = sends s.log
  returned : returned s.log = ended s.log

/-- The chunk `message` has gone over the limit, after the calls `before` and before the calls `after`. -/
structure Over (limit : ℕ) (before : List Event) (message : Message) (after : List Event) (s : Sys) : Prop where
  called : s.called = true
  limited : s.limited = true
  rejected : s.rejected = true
  replying : ∀ response ∈ s.replying, response.isStart = false
  seen : s.seen = total (received s.log)
  calls : calls s.log = before ++ .received message :: after
  le : total (received before) ≤ limit
  lt : limit < total (received before) + message.bytes
  handed : total (handed s.log) = total (received before) + total (received after)
  sent : starts (sent s.log) = starts (sends before) + 1
  quiet : Quiet limit s.log

theorem Over.lt_seen {message : Message} (h : Over limit before message after s) : limit < s.seen := by
  have hlt := h.lt
  rw [h.seen, ← received_calls, h.calls]
  simp [received, total] at hlt ⊢
  omega

/-- A message that does not go over the limit, or comes after one that did, is handed on. -/
theorem receive_pass (hl : s.limited = true) {message : Message}
    (h : s.seen + message.bytes ≤ limit ∨ s.rejected = true) :
    s.receive json limit message =
      { s with
        seen := s.seen + message.bytes
        log := s.log ++ [.received message, .handed message] } := by
  cases message with
  | request body more_body =>
      have hn : ¬(limit < s.seen + (Message.request body more_body).bytes ∧ s.rejected = false) := by
        rintro ⟨hlt, hr⟩
        rcases h with h | h
        · omega
        · simp [hr] at h
      simp [Sys.receive, hl, Sys.limitedReceive, hn]
  | _ => simp [Sys.receive, hl, Sys.limitedReceive, Message.bytes]

theorem receive_over (hl : s.limited = true) {message : Message} (hle : s.seen ≤ limit)
    (hr : s.rejected = false) (hlt : limit < s.seen + message.bytes) :
    s.receive json limit message =
      Sys.startReply json
        { s with
          seen := s.seen + message.bytes
          rejected := true
          log := s.log ++ [.received message] } 413 "request body too large" := by
  cases message with
  | request body more_body => simp [Sys.receive, hl, Sys.limitedReceive, hlt, hr]
  | _ => exact absurd hlt (by simpa [Message.bytes] using hle)

/-- The log grows, and with it what has been seen. -/
def Grows (s s' : Sys) (es : List Event) : Prop :=
  s' = { s with
    incoming := s'.incoming
    ended := s'.ended
    replying := s'.replying
    seen := s.seen + total (received es)
    log := s.log ++ es }

theorem Grows.log_eq (h : Grows s s' es) : s'.log = s.log ++ es := by rw [h]

theorem Grows.seen_eq (h : Grows s s' es) : s'.seen = s.seen + total (received es) := by rw [h]

/-- Where the same passes on both sides, it does so also afterwards. -/
theorem Within.grows (h : Within limit s) (es : List Event) (hg : Grows s s' es) (hrep : s'.replying = none)
    (hle : s.seen + total (received es) ≤ limit) (hh : Server.handed es = received es)
    (hs : Server.sent es = sends es) (hr : Server.returned es = ended es) : Within limit s' := by
  constructor
  · rw [hg]; exact h.called
  · rw [hg.log_eq]; exact List.mem_append_left _ h.mem
  · rw [hg]; exact h.limited
  · rw [hg]; exact h.rejected
  · exact hrep
  · rw [hg.seen_eq, hg.log_eq, received_append, total_append, h.seen]
  · rwa [hg.seen_eq]
  · rw [hg.log_eq, handed_append, received_append, h.handed, hh]
  · rw [hg.log_eq, sent_append, sends_append, h.sent, hs]
  · rw [hg.log_eq, returned_append, ended_append, h.returned, hr]

theorem not_start_mem {status : ℕ} {headers : Headers} (h : starts (sent es) = 0) :
    .sent (.start status headers) ∉ es := by
  intro hm
  have hm' : .start status headers ∈ sent es := List.mem_filterMap.mpr ⟨_, hm, rfl⟩
  exact absurd rfl (List.countP_eq_zero.mp h _ hm')

/-- After the refusal nothing is started, and what is delivered is handed on. -/
theorem Over.grows {message : Message} (h : Over limit before message after s) (es : List Event)
    (hg : Grows s s' es)
    (hrep : ∀ response ∈ s'.replying, response.isStart = false)
    (hh : total (Server.handed es) = total (received es)) (hs : starts (Server.sent es) = 0) :
    Over limit before message (after ++ Server.calls es) s' := by
  constructor
  · rw [hg]; exact h.called
  · rw [hg]; exact h.limited
  · rw [hg]; exact h.rejected
  · exact hrep
  · rw [hg.seen_eq, hg.log_eq, received_append, total_append, h.seen]
  · rw [hg.log_eq, calls_append, h.calls, List.append_assoc, List.cons_append]
  · exact h.le
  · exact h.lt
  · rw [hg.log_eq, handed_append, total_append, h.handed, hh, received_append, total_append, received_calls,
      Nat.add_assoc]
  · rw [hg.log_eq, sent_append, starts_append, hs, Nat.add_zero, h.sent]
  · rw [hg.log_eq]
    exact h.quiet.append fun status headers hm => absurd hm (not_start_mem hs)

theorem step_receive (hs : s.step json limit .receive = some s') :
    ∃ message incoming, s.incoming = message :: incoming ∧
      s' = { s with incoming := incoming }.receive json limit message := by
  cases hin : s.incoming with
  | nil => simp [Sys.step, hin] at hs
  | cons message incoming =>
      simp only [Sys.step, hin] at hs
      obtain ⟨-, hs⟩ := Option.ite_none_right_eq_some.mp hs
      exact ⟨message, incoming, rfl, (Option.some.inj hs).symm⟩

theorem Within.step (h : Within limit s) (hs : s.step json limit action = some s') :
    Within limit s' ∨ ∃ message, Over limit (calls s.log) message [] s' := by
  have hseen := h.seen
  have hle := h.le
  cases action with
  | receive =>
      obtain ⟨message, incoming, -, rfl⟩ := step_receive hs
      by_cases hle' : s.seen + message.bytes ≤ limit
      · left
        rw [receive_pass (s := { s with incoming := incoming }) h.limited (Or.inl hle')]
        exact h.grows [.received message, .handed message] rfl h.replying hle' rfl rfl rfl
      · right
        have hlt : limit < s.seen + message.bytes := by omega
        have hquiet : Quiet limit s.log := quiet_of_total (by omega)
        refine ⟨message, ?_⟩
        rw [receive_over (s := { s with incoming := incoming }) h.limited hle h.rejected hlt]
        constructor
        · exact h.called
        · exact h.limited
        · rfl
        · simp [Sys.startReply, Response.isStart]
        · simp only [Sys.startReply, received_append, total_append, hseen]; rfl
        · simp only [Sys.startReply, calls_append]; simp [calls]
        · rwa [received_calls, ← hseen]
        · rwa [received_calls, ← hseen]
        · simp only [Sys.startReply, handed_append, h.handed, received_calls, total_append]; rfl
        · simp only [Sys.startReply, sent_append, h.sent, sends_calls, starts_append]; rfl
        · exact (hquiet.append (by simp)).append (by simp)
  | send response =>
      simp only [Sys.step, h.called, if_true, Option.some.injEq] at hs
      subst hs
      left
      refine h.grows [.sends response, .sent response] ?_ h.replying h.le rfl rfl rfl
      simp [Grows, Sys.send, h.rejected, received, total]
  | reply => simp [Sys.step, h.replying] at hs
  | interrupt isCancelled => simp [Sys.step, h.replying] at hs
  | finish ending =>
      obtain ⟨-, hs⟩ := Option.ite_none_right_eq_some.mp hs
      cases hs
      left
      refine h.grows [.ended ending, .returned (s.passes ending)] rfl h.replying h.le rfl rfl ?_
      simp [Server.returned, Server.ended, Sys.passes, h.rejected]

/-- A step after the refusal. -/
theorem Over.step {message : Message} (h : Over limit before message after s)
    (hs : s.step json limit action = some s') :
    ∃ after', Over limit before message after' s' := by
  cases action with
  | receive =>
      obtain ⟨next, incoming, -, rfl⟩ := step_receive hs
      rw [receive_pass (s := { s with incoming := incoming }) h.limited (Or.inr h.rejected)]
      exact ⟨_, h.grows [.received next, .handed next] rfl h.replying rfl rfl⟩
  | send response =>
      simp only [Sys.step, h.called, if_true, Option.some.injEq] at hs
      subst hs
      refine ⟨_, h.grows [.sends response] ?_ h.replying rfl rfl⟩
      simp [Grows, Sys.send, h.rejected, received, total]
  | reply =>
      obtain ⟨response, hr, rfl⟩ := Option.map_eq_some_iff.mp hs
      refine ⟨_, h.grows [.sent response, .handed .disconnect] ?_ (by simp [Sys.finishReply]) rfl ?_⟩
      · simp [Grows, Sys.finishReply, h.called, received, total]
      · simp [Server.sent, starts, h.replying response (by simp [hr])]
  | interrupt isCancelled =>
      obtain ⟨response, hr, rfl⟩ := Option.map_eq_some_iff.mp hs
      refine ⟨_, h.grows [] ?_ (by simp) rfl rfl⟩
      simp [Grows, h.called, received, total]
  | finish ending =>
      obtain ⟨-, hs⟩ := Option.ite_none_right_eq_some.mp hs
      cases hs
      exact ⟨_, h.grows [.ended ending, .returned (s.passes ending)] rfl h.replying rfl rfl⟩

/-- The request has been turned away at its header. -/
structure Refused (s : Sys) : Prop where
  called : s.called = false
  mem : .called ∉ s.log
  replying : ∀ response ∈ s.replying, response.isStart = false
  handed : handed s.log = []
  calls : calls s.log = []
  sent : starts (sent s.log) ≤ 1
  status : ∀ status headers, .sent (.start status headers) ∈ s.log → status = 413

theorem Refused.step (h : Refused s) (hs : s.step json limit action = some s') : Refused s' := by
  cases action with
  | receive =>
      cases hin : s.incoming <;> simp [Sys.step, hin, h.called] at hs
  | send response => simp [Sys.step, h.called] at hs
  | reply =>
      obtain ⟨response, hr, rfl⟩ := Option.map_eq_some_iff.mp hs
      have hstart := h.replying response (by simp [hr])
      have hlog : (s.finishReply response).log = s.log ++ [.sent response, .returned .returned] := by
        simp [Sys.finishReply, h.called]
      constructor
      · exact h.called
      · simp [hlog, h.mem]
      · simp [Sys.finishReply]
      · rw [hlog, handed_append, h.handed]; rfl
      · rw [hlog, calls_append, h.calls]; rfl
      · rw [hlog, sent_append, starts_append]
        simpa [Server.sent, starts, hstart] using h.sent
      · intro status headers hm
        rw [hlog, List.mem_append] at hm
        rcases hm with hm | hm
        · exact h.status status headers hm
        · simp only [List.mem_cons, Event.sent.injEq, reduceCtorEq, List.not_mem_nil, or_false] at hm
          rw [← hm] at hstart
          cases hstart
  | interrupt isCancelled =>
      obtain ⟨response, hr, rfl⟩ := Option.map_eq_some_iff.mp hs
      simp only [h.called, Bool.false_eq_true, if_false]
      constructor
      · rfl
      · simp [h.mem]
      · simp
      · rw [handed_append, h.handed]; rfl
      · rw [calls_append, h.calls]; rfl
      · rw [sent_append, starts_append]; exact h.sent
      · simpa using h.status
  | finish ending => simp [Sys.step, h.called] at hs

/-! ## Traces -/

theorem receive_calls (s : Sys) (message : Message) :
    calls (s.receive json limit message).log = calls s.log ++ [.received message] ∧
      (s.receive json limit message).incoming = s.incoming := by
  simp only [Sys.receive]
  split
  · cases message with
    | request body more_body =>
        simp only [Sys.limitedReceive]
        split <;> simp [Sys.startReply, calls]
    | _ => simp [Sys.limitedReceive, calls]
  · simp [calls]

theorem step_trace (hs : s.step json limit action = some s') (actions : List Action) :
    calls s'.log ++ trace actions s'.incoming = calls s.log ++ trace (action :: actions) s.incoming := by
  cases action with
  | receive =>
      obtain ⟨message, incoming, hin, rfl⟩ := step_receive hs
      obtain ⟨hc, hi⟩ := @receive_calls json limit { s with incoming := incoming } message
      rw [hc, hi, hin, List.append_assoc]
      rfl
  | send response =>
      obtain ⟨-, hs⟩ := Option.ite_none_right_eq_some.mp hs
      cases hs
      have hc : calls (s.send response).log = calls s.log ++ [.sends response] := by
        simp only [Sys.send, calls_append]
        split <;> rfl
      rw [hc, List.append_assoc]
      rfl
  | reply =>
      obtain ⟨response, -, rfl⟩ := Option.map_eq_some_iff.mp hs
      have hc : calls (s.finishReply response).log = calls s.log := by
        simp only [Sys.finishReply, calls_append]
        split <;> simp [calls]
      rw [hc]
      rfl
  | interrupt isCancelled =>
      obtain ⟨response, -, rfl⟩ := Option.map_eq_some_iff.mp hs
      have hc : calls (s.log ++ if s.called then [] else
          [.returned (if isCancelled then .cancelled else .raised)]) = calls s.log := by
        rw [calls_append]
        split <;> simp [calls]
      simp only [hc]
      rfl
  | finish ending =>
      obtain ⟨-, hs⟩ := Option.ite_none_right_eq_some.mp hs
      cases hs
      simp only [calls_append, List.append_assoc]
      rfl

theorem run_trace (hr : run (Sys.step json limit) s actions = some s') :
    calls s'.log = calls s.log ++ trace actions s.incoming := by
  induction actions generalizing s with
  | nil =>
      cases hr
      simp [trace]
  | cons action actions ih =>
      obtain ⟨s₁, hs, hr⟩ := run_cons.mp hr
      rw [ih hr, step_trace hs]

theorem total_trace_le (actions : List Action) (incoming : List Message) :
    total (received (trace actions incoming)) ≤ total incoming := by
  induction actions generalizing incoming with
  | nil => exact Nat.zero_le _
  | cons action actions ih =>
      cases action with
      | receive =>
          cases incoming with
          | nil => exact ih []
          | cons message incoming =>
              have := ih incoming
              simp only [trace, received, List.filterMap_cons, total, List.map_cons, List.sum_cons] at this ⊢
              omega
      | _ => exact ih incoming

end Fronta.Server
