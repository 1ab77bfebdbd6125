import Fronta.Attempt.System
import Fronta.Codec.Lemmas.Truncate

/-!
# Errors that can be stored

When the encoder refuses the metadata of an error, the type alone remains, cut to 64 letters.
-/

namespace Fronta.Attempt

open Unicode Codec

variable {str : Value → Except Raised Text} {settings : Settings} {exc : Exc} {metadata : Dict}
  {t name : Text}

/-! ## Metadata -/

/-- The text is the encoding of a dictionary. -/
def Encodes (text : Text) : Prop := ∃ d : Dict, encode d.value = .ok text

theorem typeOnly_encodes : (∃ text, encode (typeOnly t).value = .ok text) ↔ Clean t := by
  rw [Dict.encode_ok]
  constructor
  · exact fun h => (h _ List.mem_cons_self).2
  · intro h e he
    obtain rfl := List.mem_singleton.mp he
    exact ⟨show Clean typeKey by decide, h⟩

theorem metadataJson_of_ok (h : encode metadata.value = .ok t) : metadataJson str metadata = .ok t := by
  rw [metadataJson, h]

theorem metadataJson_of_error (h : ¬metadata.Storable) :
    metadataJson str metadata = (strOf str ((metadata.get typeKey).getD (.text (ofString "Exception")))).bind
      fun name => encode (typeOnly (name.take 64)).value := by
  cases he : encode metadata.value with
  | ok text => exact absurd (Dict.encode_ok.mp ⟨text, he⟩) h
  | error failure =>
      simp only [metadataJson, he, encode_error he, if_true]
      rfl

theorem metadataJson_encodes (h : metadataJson str metadata = .ok t) : Encodes t := by
  by_cases hm : metadata.Storable
  · obtain ⟨text, htext⟩ := Dict.encode_ok.mpr hm
    rw [metadataJson_of_ok htext] at h
    cases h
    exact ⟨metadata, htext⟩
  · rw [metadataJson_of_error hm] at h
    obtain ⟨name, -, h⟩ := bind_ok.mp h
    exact ⟨_, h⟩

theorem metadataJson_ok : (∃ text, metadataJson str metadata = .ok text) ↔ metadata.Storable ∨
    ∃ name, strOf str ((metadata.get typeKey).getD (.text (ofString "Exception"))) = .ok name ∧
      Clean (name.take 64) := by
  by_cases hm : metadata.Storable
  · obtain ⟨text, htext⟩ := Dict.encode_ok.mpr hm
    exact iff_of_true ⟨text, metadataJson_of_ok htext⟩ (Or.inl hm)
  · simp only [metadataJson_of_error hm, hm, false_or]
    constructor
    · rintro ⟨text, h⟩
      obtain ⟨name, hn, h⟩ := bind_ok.mp h
      exact ⟨name, hn, typeOnly_encodes.mp ⟨text, h⟩⟩
    · rintro ⟨name, hn, hc⟩
      obtain ⟨text, h⟩ := typeOnly_encodes.mpr hc
      exact ⟨text, bind_ok.mpr ⟨name, hn, h⟩⟩

/-! ## Messages -/

theorem message_storable : (message name t).Storable ↔ Clean name ∧ Clean t := by
  constructor
  · exact fun h => ⟨(h _ List.mem_cons_self).2, (h _ (List.mem_cons_of_mem _ List.mem_cons_self)).2⟩
  · rintro ⟨hn, ht⟩
    refine List.forall_mem_cons.mpr ⟨⟨?_, hn⟩, List.forall_mem_cons.mpr ⟨⟨?_, ht⟩, nofun⟩⟩
    · exact (by decide : Clean typeKey)
    · exact (by decide : Clean (ofString "message"))

theorem timedOut_storable {timeout : Decimal} : (timedOut timeout).Storable := by
  have h₁ : Clean (ofString "attempt exceeded ") := by decide
  have h₂ : Clean (ofString " s") := by decide
  exact message_storable.mpr ⟨by decide, clean_append.mpr ⟨clean_append.mpr ⟨h₁, timeout.clean⟩, h₂⟩⟩

theorem selfCancelled_storable : selfCancelled.Storable := message_storable.mpr ⟨by decide, by decide⟩

/-! ## Exceptions -/

/-- What an exception gives of itself is text, or an `Exception` instead. -/
def Shows (exc : Exc) : Prop := exc.str ≠ .error .base ∧ exc.traceback ≠ .error .base

theorem orElse_ok {x : Except Raised Text} {f : Text → Text} :
    (∃ t, orElse x f = .ok t) ↔ x ≠ .error .base := by
  cases x with
  | ok t => exact iff_of_true ⟨t, rfl⟩ nofun
  | error e =>
      cases e with
      | base => exact iff_of_false nofun fun h => h rfl
      | _ => exact iff_of_true ⟨_, rfl⟩ nofun

theorem metadata_storable {name text traceback : Text} :
    (Codec.metadata name text traceback).Storable ↔ Clean name := by
  constructor
  · exact fun h => (h _ List.mem_cons_self).2
  · intro h e he
    simp only [Codec.metadata, List.mem_cons, List.not_mem_nil, or_false] at he
    rcases he with rfl | rfl | rfl
    · exact ⟨show Clean typeKey by decide, h⟩
    · exact ⟨show Clean (ofString "message") by decide, clean_sanitize⟩
    · exact ⟨show Clean (ofString "traceback") by decide, clean_sanitize⟩

theorem errorMetadata_fits (hs : Shows exc) (hc : Clean exc.qualname) :
    ∃ d, errorMetadata str exc settings.errorCap = .ok d ∧ Fits d settings.errorCap := by
  obtain ⟨text, htext⟩ := orElse_ok.mpr hs.1
  obtain ⟨traceback, htb⟩ := orElse_ok.mpr hs.2
  obtain ⟨d, hd, hf⟩ := @truncate_fits str _ exc.qualname _ [ofString "traceback"]
    ((@metadata_storable _ text traceback).mpr hc) rfl settings.errorCap_ge
  exact ⟨d, bind_ok.mpr ⟨text, htext, bind_ok.mpr ⟨traceback, htb, hd⟩⟩, hf⟩

theorem errorJson_of_base (h : ¬Shows exc) : errorJson str settings exc = .error .base := by
  have hm : errorMetadata str exc settings.errorCap = .error .base := by
    by_cases hs : exc.str = .error .base
    · exact bind_error.mpr (Or.inl (by rw [hs]; rfl))
    · have ht : exc.traceback = .error .base := by
        by_contra ht
        exact h ⟨hs, ht⟩
      obtain ⟨text, htext⟩ := orElse_ok.mpr hs
      exact bind_error.mpr (Or.inr ⟨text, htext, bind_error.mpr (Or.inl (by rw [ht]; rfl))⟩)
  rw [errorJson, hm]
  rfl

theorem errorJson_of_unclean (hs : Shows exc) (hc : ¬Clean exc.qualname) :
    errorJson str settings exc = encode (typeOnly (exc.qualname.take 64)).value := by
  obtain ⟨text, htext⟩ := orElse_ok.mpr hs.1
  obtain ⟨traceback, htb⟩ := orElse_ok.mpr hs.2
  have hun : ¬(Codec.metadata exc.qualname text traceback).Storable := fun h => hc (metadata_storable.mp h)
  cases he : encode (Codec.metadata exc.qualname text traceback).value with
  | ok t => exact absurd (Dict.encode_ok.mp ⟨t, he⟩) hun
  | error failure =>
      have hm : errorMetadata str exc settings.errorCap = .error failure :=
        bind_error.mpr (Or.inr ⟨text, htext, bind_error.mpr (Or.inr ⟨traceback, htb,
          bind_error.mpr (Or.inl he)⟩)⟩)
      have hq : failure.qualname.isSome = true := by
        have := encode_error he
        cases failure <;> first | rfl | cases this
      have htype : ¬(typeOnly exc.qualname).Storable := fun h => hc (h _ List.mem_cons_self).2
      simp only [errorJson, hm, hq, if_true, metadataJson_of_error htype]
      rfl

theorem errorJson_of_clean (hs : Shows exc) (hc : Clean exc.qualname) :
    ∃ text, errorJson str settings exc = .ok text ∧ Encodes text ∧ utf8Len text ≤ settings.errorCap := by
  obtain ⟨d, hd, text, htext, hlen⟩ := @errorMetadata_fits str settings _ hs hc
  exact ⟨text, by rw [errorJson, hd]; exact metadataJson_of_ok htext, ⟨d, htext⟩, hlen⟩

theorem errorJson_ok : (∃ text, errorJson str settings exc = .ok text) ↔
    Shows exc ∧ Clean (exc.qualname.take 64) := by
  by_cases hs : Shows exc
  · by_cases hc : Clean exc.qualname
    · obtain ⟨text, htext, -⟩ := @errorJson_of_clean str settings _ hs hc
      exact iff_of_true ⟨text, htext⟩ ⟨hs, hc.take 64⟩
    · rw [errorJson_of_unclean hs hc, typeOnly_encodes]
      exact ⟨fun h => ⟨hs, h⟩, fun h => h.2⟩
  · rw [errorJson_of_base hs]
    exact iff_of_false nofun fun h => hs h.1

theorem errorJson_encodes (h : errorJson str settings exc = .ok t) : Encodes t := by
  have hs := (errorJson_ok.mp ⟨t, h⟩).1
  by_cases hc : Clean exc.qualname
  · obtain ⟨text, htext, henc, -⟩ := @errorJson_of_clean str settings _ hs hc
    cases h.symm.trans htext
    exact henc
  · rw [errorJson_of_unclean hs hc] at h
    exact ⟨_, h⟩

end Fronta.Attempt
