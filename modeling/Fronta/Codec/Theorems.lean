import Fronta.Codec.Lemmas.Graph
import Fronta.Codec.Lemmas.RoundTrip
import Fronta.Codec.Lemmas.Shorten

/-!
# What can be stored, and what truncation keeps

A graph of objects is encoded if and only if it unfolds to a finite tree that can be stored. An error that is too
long keeps its keys, its values that are no texts, and a part of each text, as long as what
remains without its letters fits. Otherwise only the type survives.
-/

namespace Fronta.Codec

open Unicode

/-! ## Graphs -/

namespace Graph

/-- The encoder accepts exactly the graphs that unfold to a finite tree of at most 200 nested containers with clean
texts, text keys, finite floats and integers of at most 4300 digits. It rejects all others as unstorable or with a
type error. A parser that reads the texts of such trees gets the tree, with tuples as lists. -/
theorem storability {heap : Heap} {v : Node} {loads : Text → Option Value}
    (hloads : ∀ tree text, Unfolds heap v tree → tree.Storable maxDepth → dumps tree = .ok text →
      loads text = some tree) :
    ((∃ text, encode heap v = .ok text) ↔ ∃ tree, Unfolds heap v tree ∧ tree.Storable maxDepth) ∧
    (∀ failure, encode heap v = .error failure →
      (∃ message, failure = .unstorable message) ∨ ∃ message, failure = .typeError message) ∧
    ∀ text, encode heap v = .ok text → ∃ tree, Unfolds heap v tree ∧ loads text = some tree := by
  refine ⟨⟨fun h => ?_, fun ⟨tree, hu, hs⟩ => ?_⟩, fun failure h => ?_, fun text h => ?_⟩
  · rw [encode_eq, encode_ok] at h
    exact ⟨_, unfolds_of_storable h, h⟩
  · rw [encode_eq, encode_ok, unfold_eq hu hs fun _ hm => absurd hm List.not_mem_nil]
    exact hs
  · rw [encode_eq] at h
    have hr := encode_rejects h
    cases failure with
    | unstorable message => exact Or.inl ⟨message, rfl⟩
    | typeError message => exact Or.inr ⟨message, rfl⟩
    | _ => cases hr
  · rw [encode_eq] at h
    have hs := encode_ok.mp ⟨text, h⟩
    have hu := unfolds_of_storable hs
    obtain ⟨_, -, hd⟩ := bind_ok.mp h
    exact ⟨_, hu, hloads _ text hu hs hd⟩

section Runs

/-- A dictionary with the same tuple under two keys. -/
def shared : Heap
  | 1 => .dict [(.text (ofString "a"), .container 2), (.text (ofString "b"), .container 2)]
  | _ => .tuple [.int 1, .null]

def sharedText : Text := ofString "\x7b\"a\":[1,null],\"b\":[1,null]\x7d"

/-- A parser of one text. -/
def sharedLoads (text : Text) : Option Value :=
  if text = sharedText then some (unfold shared maxDepth [] (.container 1)) else none

/-- Sharing is no cycle. -/
theorem storability_shared : (∃ text, encode shared (.container 1) = .ok text) ∧
    ∀ text, encode shared (.container 1) = .ok text → ∃ tree, Unfolds shared (.container 1) tree ∧
      sharedLoads text = some tree := by
  have hrun : ((encode shared (.container 1)).toOption.any (· = sharedText)) = true := by decide +kernel
  obtain ⟨text, htext, he⟩ := Option.any_eq_true _ _ |>.mp hrun
  have hok : encode shared (.container 1) = .ok sharedText := by
    rw [← of_decide_eq_true he]
    cases hc : encode shared (.container 1) with
    | error failure => rw [hc] at htext; cases htext
    | ok t => rw [hc] at htext; cases htext; rfl
  have hspec := @storability shared (.container 1) sharedLoads fun tree text hu hs hd => by
    have htree := unfold_eq hu hs fun p hm => absurd hm List.not_mem_nil
    rw [encode_eq] at hok
    obtain ⟨_, -, hdumps⟩ := bind_ok.mp hok
    rw [htree, hd] at hdumps
    cases hdumps
    rw [sharedLoads, if_pos rfl, htree]
  exact ⟨⟨sharedText, hok⟩, hspec.2.2⟩

end Runs

/-- The text of a graph whose floats are written as Python writes them is read back as the finite tree that the graph
unfolds to. Every other graph with this text unfolds to the same tree. -/
theorem encode_reads_back {heap : Heap} {v : Node} {text : Text} (h : encode heap v = .ok text)
    (hl : ∀ tree, Unfolds heap v tree → tree.Literal maxDepth) :
    ∃ tree, Unfolds heap v tree ∧ loads text = some tree ∧
      ∀ heap' w, encode heap' w = .ok text → (∀ tree', Unfolds heap' w tree' → tree'.Literal maxDepth) →
        Unfolds heap' w tree := by
  have hread : ∀ {heap : Heap} {v : Node}, encode heap v = .ok text →
      (∀ tree, Unfolds heap v tree → tree.Literal maxDepth) → ∃ tree, Unfolds heap v tree ∧ loads text = some tree := by
    intro heap v h hl
    rw [encode_eq] at h
    have hs := encode_ok.mp ⟨text, h⟩
    have hu := unfolds_of_storable hs
    obtain ⟨_, -, hd⟩ := bind_ok.mp h
    exact ⟨_, hu, loads_dumps hs (hl _ hu) hd⟩
  obtain ⟨tree, hu, ht⟩ := hread h hl
  refine ⟨tree, hu, ht, fun heap' w h' hl' => ?_⟩
  obtain ⟨tree', hu', ht'⟩ := hread h' hl'
  rw [ht] at ht'
  cases ht'
  exact hu'

section Runs

def half : Decimal := ⟨ofString "-2.5e-07", by decide, by decide⟩

theorem half_literal : half.Literal := by
  have hall : ∀ ds : Text, ds.all isDigit = true → ∀ q ∈ ds, isDigit q = true := fun ds => List.all_eq_true.mp
  refine ⟨[0x2D], [0x32], [0x2E, 0x35], [0x65, 0x2D, 0x30, 0x37], ⟨Or.inr rfl, ?_, ?_, ?_⟩,
    Or.inl (List.cons_ne_nil _ _), rfl⟩
  · exact Or.inr ⟨0x32, [], rfl, by decide, hall _ rfl⟩
  · exact Or.inr ⟨[0x35], rfl, List.cons_ne_nil _ _, hall _ rfl⟩
  · exact Or.inr ⟨0x2D, [0x30, 0x37], rfl, Or.inr rfl, List.cons_ne_nil _ _, hall _ rfl⟩

/-- A tuple of one float. -/
def single : Heap := fun _ => .tuple [.float (some half)]

theorem encode_reads_back_single : ∃ text, encode single (.container 1) = .ok text ∧
    ∃ tree, Unfolds single (.container 1) tree ∧ loads text = some tree := by
  have hlit : ∀ tree, Unfolds single (.container 1) tree → tree.Literal maxDepth := by
    intro tree h
    cases h with
    | list f hr _ => cases hr
    | dict f hr _ => cases hr
    | tuple f hr hitems =>
        cases hr
        intro v hv
        obtain ⟨w, hw, rfl⟩ := List.mem_map.mp hv
        obtain rfl := List.mem_singleton.mp hw
        have hf := hitems _ hw
        generalize f (.float (some half)) = u at hf
        cases hf
        exact half_literal
  have hrun : ((encode single (.container 1)).toOption.isSome) = true := by decide +kernel
  cases hc : encode single (.container 1) with
  | error failure => rw [hc] at hrun; cases hrun
  | ok text =>
      obtain ⟨tree, hu, ht, -⟩ := encode_reads_back hc hlit
      exact ⟨text, rfl, tree, hu, ht⟩

end Runs

end Graph

/-! ## Truncation -/

variable {str : Value → Except Raised Text} {error : Dict} {cap : ℕ} {keepTail : List Text}

/-- An error that fits without its letters and with the flag is truncated to one that fits. It is the same error
if that fits already. Otherwise it is flagged and has the same keys, texts become suffixes under the keys of
`keepTail` and prefixes elsewhere, and other values stay. -/
theorem truncation (hd : error.Storable) (hfit : Fits (error.set truncatedKey (.bool true)).emptied cap) :
    ∃ result, truncate str error cap keepTail = .ok result ∧ Fits result cap ∧
      (Fits error cap → result = error) ∧
      (¬Fits error cap →
        result.get truncatedKey = some (.bool true) ∧
        result.items.map Prod.fst = (error.set truncatedKey (.bool true)).items.map Prod.fst ∧
        ∀ k v, error.get k = some v → k ≠ truncatedKey →
          ∃ v', result.get k = some v' ∧ Shorter keepTail k v v') := by
  by_cases h : Fits error cap
  · exact ⟨error, truncate_of_fits h, h, fun _ => rfl, fun hn => absurd h hn⟩
  · have hflag : (error.set truncatedKey (.bool true)).Storable := hd.set (by decide) trivial
    obtain ⟨e, he, hf, hc⟩ := @shrink_cutOf str _ _ error _ keepTail hfit hflag .refl
    refine ⟨e, (truncate_of_not_fits hd h).trans he, hf, fun hn => absurd hn h, fun _ => ⟨?_, hc.keys, ?_⟩⟩
    · obtain ⟨v, hv, hs⟩ := hc.lookup Dict.get_set_self
      cases hs
      exact hv
    · intro k v hk hne
      exact hc.lookup ((Dict.get_set_ne hne).trans hk)

section Runs

/-- A process that wrote 600 letters to each stream. -/
def noisy : Dict where
  items := [(typeKey, .text (ofString "ProcessFailed")), (ofString "exit_code", .int 1),
    (ofString "stdout", .text (List.replicate 600 0x61)), (ofString "stderr", .text (List.replicate 600 0x1F600)),
    (truncatedKey, .bool false)]
  nodup := by decide

theorem truncation_noisy : ∃ result,
    truncate (fun _ => .ok []) noisy 1024 [ofString "stderr"] = .ok result ∧ Fits result 1024 ∧
      result.get truncatedKey = some (.bool true) := by
  obtain ⟨result, hr, hf, -, hlong⟩ :=
    @truncation (fun _ => .ok []) noisy 1024 [ofString "stderr"]
      (@storable_of_fits noisy 4000 (by decide +kernel)) (by decide +kernel)
  exact ⟨result, hr, hf, (hlong (by decide +kernel)).1⟩

/-- A type of one control letter and 126 numbers under keys of three digits. -/
def counters : Dict where
  items := (typeKey, .text [1]) :: (List.range 126).map fun n => (digits (100 + n), .int 7)
  nodup := by decide +kernel

/-- Without its letters the error fits, but not with the flag: its numbers are gone. -/
theorem flag_costs_numbers : counters.Storable ∧ Fits counters.emptied 1024 ∧ ¬Fits counters 1024 ∧
    ∃ result, (∀ str, truncate str counters 1024 [] = .ok result) ∧
      counters.get (digits 100) = some (.int 7) ∧ result.get (digits 100) = none := by
  have hd : counters.Storable := @storable_of_fits counters 2000 (by decide +kernel)
  have hlong : ¬Fits counters 1024 := by decide +kernel
  have hflag : (counters.set truncatedKey (.bool true)).Storable := hd.set (by decide) trivial
  have hempty : ((counters.set truncatedKey (.bool true)).set typeKey (.text [])).Storable :=
    hflag.set (by decide) clean_nil
  refine ⟨hd, by decide +kernel, hlong, minimal [1], fun str => ?_, rfl, rfl⟩
  rw [truncate_of_not_fits hd hlong,
    (shrink_of_not_fits hflag (by decide +kernel)).1 typeKey [1] (by decide +kernel)]
  exact (shrink_of_not_fits hempty (by decide +kernel)).2 (by decide +kernel)

end Runs

end Fronta.Codec
