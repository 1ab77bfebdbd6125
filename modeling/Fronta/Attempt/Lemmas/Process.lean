import Fronta.Attempt.Execution
import Fronta.Attempt.Lemmas.Errors
import Mathlib.Data.Nat.Digits.Defs

/-!
# Results and failures of processes

What is kept of a stream does not depend on the chunks. A result and the metadata of a failed process can be
stored, and the metadata fits.
-/

namespace Fronta.Attempt

open Unicode Codec

variable {str : Value → Except Raised Text} {settings : Settings} {t name : Text} {maxOutput : ℕ}
  {r : ProcessResult} {p : Process} {traceback : Except Raised Text} {failure : SetupFailure}

/-! ## Streams -/

/-- What has been kept of the bytes that were read. -/
def keptOf (maxOutput : ℕ) (seen : List UInt8) : Drained := ⟨seen.take maxOutput, maxOutput < seen.length⟩

theorem read_keptOf {seen chunk : List UInt8} :
    (keptOf maxOutput seen).read maxOutput chunk = keptOf maxOutput (seen ++ chunk) := by
  have hroom : maxOutput - min maxOutput seen.length = maxOutput - seen.length := by omega
  have ht : (decide (maxOutput < seen.length) || decide (maxOutput - seen.length < chunk.length)) =
      decide (maxOutput < seen.length + chunk.length) := by
    rw [← Bool.decide_or, decide_eq_decide]
    omega
  simp only [keptOf, Drained.read, List.length_take, hroom, List.take_append, List.length_append, ht]

theorem foldl_read {seen : List UInt8} {chunks : List (List UInt8)} :
    chunks.foldl (Drained.read maxOutput) (keptOf maxOutput seen) =
      keptOf maxOutput (seen ++ chunks.flatten) := by
  induction chunks generalizing seen with
  | nil => simp
  | cons chunk chunks ih =>
      rw [List.foldl_cons, read_keptOf, ih, List.flatten_cons, List.append_assoc]

theorem drain_eq {chunks : List (List UInt8)} : drain maxOutput chunks = keptOf maxOutput chunks.flatten := by
  have h := @foldl_read maxOutput [] chunks
  simpa [keptOf, drain] using h

theorem clean_streamText {bytes : List UInt8} : Clean (streamText bytes) :=
  clean_replaceWhere fun p hp h => ⟨by simpa using h, decode_sane p hp⟩

/-! ## Encodings -/

theorem digits_int32 (n : Int32) : (digits n.toInt.natAbs).length ≤ maxDigits := by
  have h₁ := n.le_toInt
  have h₂ := n.toInt_lt
  have hlt : n.toInt.natAbs < 10 ^ 10 := by omega
  rw [digits, List.length_map]
  exact (Nat.toDigits_length 10 _ 10 (by decide) hlt).trans (by decide)

theorem fields_storable (h₁ : Clean r.stdout) (h₂ : Clean r.stderr) :
    ∀ e ∈ r.fields, Clean e.1 ∧ e.2.Storable (maxDepth - 1) := by
  simp only [ProcessResult.fields, List.forall_mem_cons]
  refine ⟨⟨by decide, digits_int32 _⟩, ⟨by decide, h₁⟩, ⟨by decide, h₂⟩, ⟨by decide, trivial⟩, nofun⟩

theorem run_storable : ∀ e ∈ (p.run maxOutput).fields, Clean e.1 ∧ e.2.Storable (maxDepth - 1) :=
  fields_storable clean_streamText clean_streamText

theorem exited_storable : (exited (p.run maxOutput)).Storable := by
  have hexit : Clean (ofString "exit code ") := by decide
  refine List.forall_mem_cons.mpr ⟨⟨?_, ?_⟩, List.forall_mem_cons.mpr ⟨⟨?_, ?_⟩, run_storable⟩⟩
  · exact (by decide : Clean typeKey)
  · exact (by decide : Clean (ofString "ProcessFailed"))
  · exact (by decide : Clean (ofString "message"))
  · exact clean_append.mpr ⟨hexit, clean_decimal⟩

/-- A non-zero exit ends the runner with metadata that fits. -/
theorem finish_fits (h : p.exitCode ≠ 0) : ∃ exc metadata,
    p.finish str settings maxOutput name traceback = .raised exc (.process metadata) ∧
      Fits metadata settings.errorCap := by
  obtain ⟨d, hd, hf⟩ := @truncate_fits str _ (ofString "ProcessFailed") _
    [ofString "stdout", ofString "stderr"] (@exited_storable maxOutput p) rfl settings.errorCap_ge
  refine ⟨⟨ofString "ProcessFailed", .ok [], traceback⟩, d, ?_, hf⟩
  have hr : (p.run maxOutput).exitCode ≠ 0 := h
  simp only [Process.finish, if_neg hr, processFailed, hd]

theorem message_len {text : Text} (h : encode (message name t).value = .ok text) :
    utf8Len text = quotedLen name + quotedLen t + 24 := by
  obtain ⟨_, -, hd⟩ := bind_ok.mp h
  have ht : dumps (message name t).value =
      .ok (object [(typeKey, quote name), (ofString "message", quote t)]) := rfl
  have h₁ : quotedLen typeKey = 4 := by decide
  have h₂ : quotedLen (ofString "message") = 7 := by decide
  cases ht.symm.trans hd
  simp only [utf8Len_object, List.map_cons, List.map_nil, List.sum_cons, List.sum_nil, utf8Len_quote, h₁, h₂]
  omega

theorem typeOnly_len {text : Text} (h : encode (typeOnly t).value = .ok text) :
    utf8Len text = quotedLen t + 11 := by
  obtain ⟨_, -, hd⟩ := bind_ok.mp h
  have ht : dumps (typeOnly t).value = .ok (object [(typeKey, quote t)]) := rfl
  have h₁ : quotedLen typeKey = 4 := by decide
  cases ht.symm.trans hd
  simp only [utf8Len_object, List.map_cons, List.map_nil, List.sum_cons, List.sum_nil, utf8Len_quote, h₁]
  omega

/-! ## Results -/

theorem result_len {text : Text} (h : encode r.toJson.value = .ok text) (hz : r.exitCode = 0) :
    utf8Len text = quotedLen r.stdout + quotedLen r.stderr + if r.truncated then 56 else 57 := by
  obtain ⟨_, -, hd⟩ := bind_ok.mp h
  obtain ⟨code, out, err, truncated⟩ := r
  obtain rfl : code = 0 := hz
  have hcode : dumps (.int (0 : Int32).toInt) = .ok (ofString "0") := rfl
  have ht : dumps (ProcessResult.mk 0 out err truncated).toJson.value =
      .ok (object [(ofString "exit_code", ofString "0"), (ofString "stdout", quote out),
        (ofString "stderr", quote err), (ofString "truncated",
          ofString (if truncated then "true" else "false"))]) :=
    dumps_value (.cons ⟨rfl, hcode⟩ (.cons ⟨rfl, rfl⟩ (.cons ⟨rfl, rfl⟩ (.cons ⟨rfl, rfl⟩ .nil))))
  have h₁ : quotedLen (ofString "exit_code") = 9 := by decide
  have h₂ : quotedLen (ofString "stdout") = 6 := by decide
  have h₃ : quotedLen (ofString "stderr") = 6 := by decide
  have h₄ : quotedLen (ofString "truncated") = 9 := by decide
  have h₅ : utf8Len (ofString "0") = 1 := by decide
  have h₆ : utf8Len (ofString (if truncated then "true" else "false")) = if truncated then 4 else 5 := by
    cases truncated <;> decide
  cases ht.symm.trans hd
  simp only [utf8Len_object, List.map_cons, List.map_nil, List.sum_cons, List.sum_nil, utf8Len_quote, h₁, h₂,
    h₃, h₄, h₅, h₆]
  cases truncated <;> simp only [Bool.false_eq_true, if_true, if_false] <;> omega

theorem encodeCapped_ok {v : Value} {cap : ℕ} {what text : Text} (h : encode v = .ok text) :
    encodeCapped v cap what = if cap < utf8Len text then .error (.overCap (what ++ ofString " is " ++
      digits (utf8Len text) ++ ofString " bytes, cap is " ++ digits cap ++ ofString " bytes"))
    else .ok text := by
  simp only [encodeCapped, h, bind, Except.bind]
  split_ifs <;> rfl

/-- What a process with exit code zero leaves: the first bytes of each stream, decoded. -/
def Process.contents (p : Process) (maxOutput : ℕ) : ProcessResult where
  exitCode := 0
  stdout := streamText (p.out.flatten.take maxOutput)
  stderr := streamText (p.err.flatten.take maxOutput)
  truncated := maxOutput < p.out.flatten.length || maxOutput < p.err.flatten.length

theorem run_eq (hz : p.exitCode = 0) : p.run maxOutput = p.contents maxOutput := by
  simp only [Process.run, Process.contents, drain_eq, keptOf, hz]

theorem contents_encodes (hz : p.exitCode = 0) :
    ∃ text, encode (p.contents maxOutput).toJson.value = .ok text := by
  have hd : (p.contents maxOutput).toJson.Storable := run_eq hz ▸ run_storable
  exact Dict.encode_ok.mpr hd

theorem finish_of_zero (hz : p.exitCode = 0) : p.finish str settings maxOutput name traceback =
    encodeResult settings name traceback (p.contents maxOutput).toJson.value := by
  rw [Process.finish, run_eq hz]
  exact if_pos rfl

/-- A result over the cap is a final failure. -/
theorem finish_over_cap {text : Text} (hz : p.exitCode = 0)
    (ht : encode (p.contents maxOutput).toJson.value = .ok text) (hcap : settings.resultCap < utf8Len text)
    (hb : traceback ≠ .error .base) :
    ∃ data, finishCompleted str settings none (p.finish str settings maxOutput name traceback) =
      .ok (some ⟨.failFinal, some data⟩) := by
  rw [finish_of_zero hz, encodeResult, encodeCapped_ok ht, if_pos hcap]
  obtain ⟨data, hdata⟩ := (@errorJson_ok str settings _).mpr
    (⟨⟨nofun, hb⟩, by decide⟩ : Shows ⟨ofString "ResultSerializationError", .ok (ofString "result of task '" ++
      name ++ ofString "' cannot be stored: " ++ Raised.message (.overCap (ofString "result" ++ ofString " is " ++
      digits (utf8Len text) ++ ofString " bytes, cap is " ++ digits settings.resultCap ++
      ofString " bytes"))), traceback⟩ ∧ Clean ((ofString "ResultSerializationError").take 64))
  exact ⟨data, bind_ok.mpr ⟨data, hdata, rfl⟩⟩

theorem streamText_replicate {b : UInt8} {n : ℕ} (h : b.toNat < 0x80) (hb : b.toNat ≠ 0) :
    streamText (List.replicate n b) = List.replicate n (Fin.ofNat _ b.toNat) := by
  have hne : (Fin.ofNat 0x110000 b.toNat).val ≠ 0 := by
    rw [Fin.val_ofNat, Nat.mod_eq_of_lt (Nat.lt_trans h (by decide))]
    exact hb
  rw [streamText, decode_replicate h, replaceWhere, List.map_replicate, if_neg (by simpa using hne)]

theorem quotedLen_replicate {n : ℕ} {q : Point} : quotedLen (List.replicate n q) = n * utf8Len (escape q) := by
  simp [quotedLen]

/-! ## Caps -/

/-- The error of an outcome is within the cap. -/
def Capped (settings : Settings) (result : Except Raised (Option Outcome)) : Prop :=
  ∀ kind text, result = .ok (some ⟨kind, some text⟩) → kind = .fail ∨ kind = .failFinal →
    utf8Len text ≤ settings.errorCap

theorem capped_of_json {x : Except Raised Text} {kind : CompletionKind}
    (h : ∀ text, x = .ok text → utf8Len text ≤ settings.errorCap) :
    Capped settings (do return some ⟨kind, some (← x)⟩) := by
  intro kind' text hx _
  obtain ⟨text', ht, hx⟩ := bind_ok.mp hx
  cases hx
  exact h text ht

theorem typeOnly_capped {text : Text} (h : encode (typeOnly (t.take 64)).value = .ok text) :
    utf8Len text ≤ settings.errorCap := by
  have hlen := typeOnly_len h
  have htake := quotedLen_take_le (t := t) 64
  have hcap := settings.errorCap_ge
  omega

theorem errorJson_capped {exc : Exc} {text : Text} (h : errorJson str settings exc = .ok text) :
    utf8Len text ≤ settings.errorCap := by
  have hs := (errorJson_ok.mp ⟨text, h⟩).1
  by_cases hc : Clean exc.qualname
  · obtain ⟨text', ht, -, hlen⟩ := @errorJson_of_clean str settings _ hs hc
    cases h.symm.trans ht
    exact hlen
  · rw [errorJson_of_unclean hs hc] at h
    exact typeOnly_capped h

theorem metadataJson_capped {d : Dict} {text : Text} (hf : Fits d settings.errorCap)
    (h : metadataJson str d = .ok text) : utf8Len text ≤ settings.errorCap := by
  obtain ⟨text', ht, hlen⟩ := hf
  rw [metadataJson_of_ok ht] at h
  cases h
  exact hlen

theorem message_capped {text : Text} (hn : quotedLen name + quotedLen t ≤ 1000)
    (h : encode (message name t).value = .ok text) : utf8Len text ≤ settings.errorCap := by
  have hlen := message_len h
  have hcap := settings.errorCap_ge
  omega

theorem selfCancelled_capped {text : Text} (h : encode selfCancelled.value = .ok text) :
    utf8Len text ≤ settings.errorCap :=
  message_capped (by decide) h

theorem timedOut_capped {timeout : Decimal} {text : Text} (h : encode (timedOut timeout).value = .ok text) :
    utf8Len text ≤ settings.errorCap := by
  refine message_capped ?_ h
  have hname : quotedLen (ofString "AttemptTimeout") = 14 := by decide
  have hlen := quotedLen_le (t := ofString "attempt exceeded " ++ timeout.text ++ ofString " s")
  have h₁ : (ofString "attempt exceeded ").length = 17 := by decide
  have h₂ : (ofString " s").length = 2 := by decide
  have hs := timeout.short
  simp only [List.length_append, h₁, h₂] at hlen
  omega

/-- Where the setup of the sandbox failed, the message decides. -/
theorem setupFailed_capped : (∀ text, metadataJson str (setupFailed failure) = .ok text →
    utf8Len text ≤ settings.errorCap) ↔
      (Clean failure.message → quotedLen failure.message + 36 ≤ settings.errorCap) := by
  have hname : quotedLen (ofString "SandboxError") = 12 := by decide
  by_cases hc : Clean failure.message
  · obtain ⟨text, htext⟩ := Dict.encode_ok.mpr
      (message_storable.mpr ⟨(by decide : Clean (ofString "SandboxError")), hc⟩)
    have hlen := message_len htext
    have hok : metadataJson str (setupFailed failure) = .ok text := metadataJson_of_ok htext
    simp only [hok, Except.ok.injEq, forall_eq', hc, forall_const]
    omega
  · refine iff_of_true (fun text h => ?_) fun h => absurd h hc
    have hs : ¬(setupFailed failure).Storable := fun h => hc (message_storable.mp h).2
    rw [metadataJson_of_error hs] at h
    obtain ⟨name, -, h⟩ := bind_ok.mp h
    exact typeOnly_capped h

theorem finish_capped : Capped settings
    (finishCompleted str settings none (p.finish str settings maxOutput name traceback)) := by
  by_cases hz : (p.run maxOutput).exitCode = 0
  · simp only [Process.finish, if_pos hz, encodeResult]
    split
    · intro kind text h hk
      cases h
      simp at hk
    · exact capped_of_json fun text h => errorJson_capped h
  · obtain ⟨exc, metadata, hf, hfits⟩ := @finish_fits str settings name maxOutput p traceback hz
    rw [hf]
    exact capped_of_json fun text h => metadataJson_capped hfits h

end Fronta.Attempt
