import Fronta.Attempt.Lemmas.Controller
import Fronta.Attempt.Lemmas.Process

/-!
# Outcomes of attempts

What a controller submits, which errors can be stored, how large they are, and when a process that exits with
zero succeeds.
-/

namespace Fronta.Attempt

open Unicode Codec Runs
open Worker (Cause)

variable (str : Value → Except Raised Text) (settings : Settings)

/-- The default settings. -/
def defaults : Settings := ⟨65536, 1048576, by decide, by decide⟩

/-! ## What is submitted -/

section Runs

variable {w : Env} {h : History} {actions : List Action}

theorem inv_of_run (hr : run (History.step w) .init actions = some h) : Inv h.sys := by
  refine Reachable.invariant (I := fun h => Inv h.sys) ⟨actions, hr⟩ Inv.init fun h _ h' hi hs => ?_
  obtain ⟨s, hstep, rfl⟩ := step_history.mp hs
  exact hi.step hstep

theorem seen_of_run (hr : run (History.step w) .init actions = some h) : Seen h :=
  Reachable.invariant ⟨actions, hr⟩ Seen.init fun _ _ _ hh hs => hh.step hs

end Runs

/-! ## Errors are stored -/

/-- An error is stored, as the encoding of an object in clean text, exactly if nothing but an `Exception` is
raised while it is shown and the first letters of its type are clean. Metadata is, exactly if it can be stored
itself or the first letters of its type are clean. -/
theorem errors_always_stored :
    (∀ exc, (∃ text, errorJson str settings exc = .ok text ∧ Clean text ∧ Encodes text) ↔
      Shows exc ∧ Clean (exc.qualname.take 64)) ∧
    ∀ metadata, (∃ text, metadataJson str metadata = .ok text ∧ Clean text ∧ Encodes text) ↔
      metadata.Storable ∨
        ∃ name, strOf str ((metadata.get typeKey).getD (.text (ofString "Exception"))) = .ok name ∧
          Clean (name.take 64) := by
  have hclean : ∀ text, Encodes text → Clean text := fun text ⟨d, hd⟩ => clean_encode hd
  refine ⟨fun exc => ?_, fun metadata => ?_⟩
  · rw [← @errorJson_ok str settings]
    constructor
    · exact fun ⟨text, h, _⟩ => ⟨text, h⟩
    · exact fun ⟨text, h⟩ => ⟨text, h, hclean text (errorJson_encodes h), errorJson_encodes h⟩
  · rw [← metadataJson_ok]
    constructor
    · exact fun ⟨text, h, _⟩ => ⟨text, h⟩
    · exact fun ⟨text, h⟩ => ⟨text, h, hclean text (metadataJson_encodes h), metadataJson_encodes h⟩

/-- A handler raises an exception whose type has a NUL in its name. -/
def nulType : Exc := ⟨ofString "Bad" ++ [0], .ok (ofString "boom"), .ok (ofString "Traceback")⟩

theorem nul_type_is_not_stored :
    ¬ ∃ text, errorJson (fun _ => .ok []) defaults nulType = .ok text := by
  intro h
  have hc := (errorJson_ok.mp h).2
  exact absurd hc (by decide)

/-! ## Errors are capped -/

/-- The ways in which an attempt fails. -/
inductive Failing
  | raised (exc : Exc) (final : Bool)
  | cancelled
  | timeout (timeout : Decimal)
  | setup (failure : SetupFailure) (exc : Exc)
  | exited (p : Process) (maxOutput : ℕ) (name : Text) (traceback : Except Raised Text)

/-- What the controller submits. -/
def Failing.outcome : Failing → Except Raised (Option Outcome)
  | raised exc final => finishCompleted str settings none (.raised exc (if final then .final else .other))
  | cancelled => finishCompleted str settings none .cancelled
  | timeout t => finishStopped (some .timeout) t
  | setup failure exc => finishCompleted str settings none (.raised exc (.process (setupFailed failure)))
  | exited p maxOutput name traceback =>
      finishCompleted str settings none (p.finish str settings maxOutput name traceback)

/-- Every error is within the cap, except for the one of a failed setup, whose message is not cut. -/
theorem errors_capped (way : Failing) : Capped settings (way.outcome str settings) ↔
    ∀ failure exc, way = .setup failure exc → Clean failure.message →
      quotedLen failure.message + 36 ≤ settings.errorCap := by
  cases way with
  | raised exc final =>
      refine iff_of_true ?_ nofun
      cases final <;> exact capped_of_json fun text h => errorJson_capped h
  | cancelled => exact iff_of_true (capped_of_json fun text h => selfCancelled_capped h) nofun
  | timeout t => exact iff_of_true (capped_of_json fun text h => timedOut_capped h) nofun
  | setup failure exc =>
      constructor
      · intro h failure' exc' he
        cases he
        exact setupFailed_capped.mp fun text ht =>
          h .fail text (bind_ok.mpr ⟨text, ht, rfl⟩) (Or.inl rfl)
      · exact fun h => capped_of_json (setupFailed_capped.mpr (h failure exc rfl))
  | exited p maxOutput name traceback => exact iff_of_true finish_capped nofun

/-- bwrap writes a long message and gives up. -/
def refused : SetupFailure := .setup (some 1) (List.replicate 2000 0x78)

theorem refused_setup_is_not_capped : ∃ settings : Settings, settings.errorCap = 1024 ∧
    ¬Capped settings (Failing.outcome (fun _ => .ok []) settings
      (.setup refused ⟨ofString "ProcessFailed", .ok [], .ok []⟩)) := by
  refine ⟨⟨1024, 1048576, by decide, by decide⟩, rfl, fun h => ?_⟩
  have hcap := setupFailed_capped.mp fun text ht => h .fail text (bind_ok.mpr ⟨text, ht, rfl⟩) (Or.inl rfl)
  have hmessage : Clean refused.message ∧ 1024 < quotedLen refused.message + 36 := by decide +kernel
  exact absurd (hcap hmessage.1) (Nat.not_le.mpr hmessage.2)

/-! ## Exit zero -/

/-- A process that exits with zero succeeds with what it left exactly if the encoding is within the cap. -/
theorem exit_zero_succeeds {p : Process} {maxOutput : ℕ} {name : Text} {traceback : Except Raised Text}
    (hz : p.exitCode = 0) :
    (∃ text, encode (p.contents maxOutput).toJson.value = .ok text ∧
      finishCompleted str settings none (p.finish str settings maxOutput name traceback) =
        .ok (some ⟨.succeed, some text⟩)) ↔
    quotedLen (p.contents maxOutput).stdout + quotedLen (p.contents maxOutput).stderr +
      (if (p.contents maxOutput).truncated then 56 else 57) ≤ settings.resultCap := by
  obtain ⟨text, htext⟩ := @contents_encodes maxOutput p hz
  have hlen := result_len htext rfl
  rw [finish_of_zero hz, encodeResult, encodeCapped_ok htext, ← hlen]
  by_cases hcap : settings.resultCap < utf8Len text
  · rw [if_pos hcap]
    refine iff_of_false ?_ (Nat.not_le.mpr hcap)
    rintro ⟨text', -, h⟩
    obtain ⟨error, -, h⟩ := bind_ok.mp h
    cases h
  · rw [if_neg hcap]
    exact iff_of_true ⟨text, htext, rfl⟩ (Nat.not_lt.mp hcap)

/-- `echo ok` -/
def echo : Process := ⟨0, [some 0], [[0x6F, 0x6B], [0x0A]], []⟩

theorem echo_succeeds : ∃ text, encode (echo.contents 262144).toJson.value = .ok text ∧
    finishCompleted (fun _ => .ok []) defaults none
      (echo.finish (fun _ => .ok []) defaults 262144 (ofString "echo") (.ok [])) =
        .ok (some ⟨.succeed, some text⟩) :=
  (exit_zero_succeeds (fun _ => .ok []) defaults (p := echo) rfl).mpr (by decide +kernel)

/-- A process that fills its output with control characters. -/
def noisy : Process := ⟨0, [some 0], List.replicate 4 (List.replicate 65536 1), []⟩

theorem noisy_process_fails : noisy.exitCode = 0 ∧ noisy.out.flatten.length = 262144 ∧
    ∃ data, finishCompleted (fun _ => .ok []) defaults none
      (noisy.finish (fun _ => .ok []) defaults 262144 (ofString "noisy") (.ok [])) =
        .ok (some ⟨.failFinal, some data⟩) := by
  have hout : noisy.out.flatten = List.replicate 262144 1 := List.flatten_replicate_replicate
  obtain ⟨text, htext⟩ := @contents_encodes 262144 noisy rfl
  have hstdout : (noisy.contents 262144).stdout = List.replicate 262144 1 := by
    rw [Process.contents, hout, List.take_of_length_le (List.length_replicate).le]
    exact streamText_replicate (by decide) (by decide)
  have hlen := result_len htext rfl
  rw [hstdout, quotedLen_replicate] at hlen
  have hsize : utf8Len (escape 1) = 6 := by decide
  have hcap : defaults.resultCap = 1048576 := rfl
  refine ⟨rfl, by rw [hout, List.length_replicate], finish_over_cap rfl htext ?_ fun h => by cases h⟩
  omega

end Fronta.Attempt
