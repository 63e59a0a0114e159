import PromptCalc.Console
import PromptCalc.Proofs.Rendering
import Mathlib

/-!
# Result lines

What a reader of the output sees of the answers. A result stands on a line of its own, behind the
markers of the line that was answered and of those before it that printed nothing, and it is told
from all else that is printed.
-/
namespace PromptCalc

namespace Number

theorem rounded?_eq_none_iff {places : Nat} {x : Float} :
    rounded? places x = none ↔ ¬ places ≤ maxPlaces := by
  unfold rounded?
  split <;> simp_all

theorem le_maxPlaces_of_rounded? {places : Nat} {x : Float} {text : String}
    (h : rounded? places x = some text) : places ≤ maxPlaces := by
  by_contra hmany
  cases h.symm.trans (rounded?_eq_none_iff.mpr hmany)

theorem newline_notMem_rounded {places : Nat} {x : Float} {text : String}
    (h : rounded? places x = some text) : '\n' ∉ text.toList := by
  have hdigits (m : Magnitude) (c : Char) (hc : c ∈ (m.roundedText places).toList) :
      isNumeric c = true := by
    rw [Magnitude.roundedText, String.toList_append, List.mem_append] at hc
    rcases hc with hc | hc
    · exact Decimal.isNumeric_of_mem_text _ hc
    · rw [String.toList_ofList] at hc
      rw [List.eq_of_mem_replicate hc]
      rfl
  unfold rounded? at h
  split at h
  · obtain rfl := Option.some.inj h
    exact fun hmem => absurd (mem_written hdigits hmem) (by decide)
  · cases h

end Number

namespace Console

/-- The line without the markers before what is printed on it. -/
def unmarked : List Char → List Char
  | '>' :: '>' :: ' ' :: cs => unmarked cs
  | cs => cs

def shown? (line : List Char) : Option (List Char) := "result: ".toList.isPrefixOf? (unmarked line)

def resultsIn (output : List Char) : List (List Char) := (output.splitOn '\n').filterMap shown?

theorem shown?_marker (cs : List Char) : shown? (marker.toList ++ cs) = shown? cs := rfl

theorem resultsIn_marker (cs : List Char) : resultsIn (marker.toList ++ cs) = resultsIn cs := by
  have hsplit : (marker.toList ++ cs).splitOn '\n' =
      (cs.splitOn '\n').modifyHead (marker.toList ++ ·) := by
    have hmarker : marker.toList = ['>', '>', ' '] := rfl
    simp only [hmarker, List.cons_append, List.nil_append, List.splitOn_cons_eq_if_modifyHead]
    cases cs.splitOn '\n' <;> rfl
  rw [resultsIn, resultsIn, hsplit]
  cases cs.splitOn '\n' with
  | nil => rfl
  | cons line lines =>
    rw [List.modifyHead_cons, List.filterMap_cons, List.filterMap_cons, shown?_marker]

theorem resultsIn_line (as bs : List Char) :
    resultsIn (as ++ '\n' :: bs) = resultsIn as ++ resultsIn bs := by
  rw [resultsIn, List.splitOn_append_cons_self, List.filterMap_append]
  rfl

theorem resultsIn_append {as : List Char} (h : as.getLast? = some '\n') (bs : List Char) :
    resultsIn (as ++ bs) = resultsIn as ++ resultsIn bs := by
  obtain ⟨front, rfl⟩ := List.getLast?_eq_some_iff.mp h
  have hnone : resultsIn [] = [] := rfl
  rw [List.append_assoc, List.singleton_append, resultsIn_line, resultsIn_line, hnone,
    List.append_nil]

theorem resultsIn_result {text : String} (h : '\n' ∉ text.toList) (cs : List Char) :
    resultsIn ((result text).toList ++ cs) = text.toList :: resultsIn cs := by
  have hchars : (result text).toList ++ cs =
      (marker.toList ++ ("result: ".toList ++ text.toList)) ++ '\n' :: cs := by
    simp [result, marker]
  have hline : '\n' ∉ "result: ".toList ++ text.toList := by
    simp [h]
  rw [hchars, resultsIn_line, resultsIn_marker, resultsIn, List.splitOn_eq_singleton hline]
  rfl

end Console

end PromptCalc
