import Mathlib.Data.List.Basic
import SliceLint.AliasSet
import SliceLint.Proofs.Text

set_option autoImplicit false

/-! # The longest alias

An alias set is made from aliases in any order, with repetitions. The order in which the set keeps
them depends on that order, but what a path matches does not (`AliasSet.match?_ofList`): two aliases
that one path begins with are starts of each other, so they are equal or one of them is longer, and
the longer one is kept in front. -/

namespace SliceLint

/-! ## Stable sorting -/

/-- A stable sort leaves two elements in their order, unless the second one has to stand in
front. -/
theorem pairwise_mergeSort_of_pairwise {α : Type} {le : α → α → Bool} {r : α → α → Prop}
    (trans : ∀ a b c, le a b = true → le b c = true → le a c = true)
    (total : ∀ a b, (le a b || le b a) = true) {xs : List α} (h : xs.Pairwise r) :
    (xs.mergeSort le).Pairwise fun a b => le b a = false ∨ r a b := by
  induction xs with
  | nil => simp
  | cons x xs ih =>
      rw [List.pairwise_cons] at h
      obtain ⟨before, after, hsort, hrest, hbefore⟩ := List.mergeSort_cons trans total x xs
      have hxs := ih h.2
      rw [hrest, List.pairwise_append] at hxs
      have hafter : ∀ b ∈ after, r x b := by
        intro b hb
        have hmem : b ∈ xs.mergeSort le := by simp [hrest, hb]
        exact h.1 b (List.mem_mergeSort.1 hmem)
      rw [hsort, List.pairwise_append, List.pairwise_cons]
      refine ⟨hxs.1, ⟨fun b hb => Or.inr (hafter b hb), hxs.2.1⟩, fun a ha b hb => ?_⟩
      rcases List.mem_cons.1 hb with rfl | hb
      · exact Or.inl (by simpa using hbefore a ha)
      · exact hxs.2.2 a ha b hb

/-! ## Texts that begin one text -/

namespace Text

/-- Of two starts of one text, the one that is not shorter begins with the other. -/
theorem startsWith_of_size_le {a b s : String} (ha : startsWith a s = true)
    (hb : startsWith b s = true) (h : a.utf8ByteSize ≤ b.utf8ByteSize) :
    startsWith a b = true := by
  obtain ⟨rest, hrest⟩ := startsWith_iff.1 ha
  obtain ⟨rest', hrest'⟩ := startsWith_iff.1 hb
  have hlist : a.toList ++ rest.toList = b.toList ++ rest'.toList := by
    simpa using congrArg String.toList (hrest.symm.trans hrest')
  rcases List.append_eq_append_iff.1 hlist with ⟨cs, hlong, -⟩ | ⟨cs, hlong, -⟩
  · exact startsWith_iff.2 ⟨String.ofList cs, String.toList_injective (by simpa using hlong)⟩
  · have hlong : a = b ++ String.ofList cs := String.toList_injective (by simpa using hlong)
    have hsize := congrArg String.utf8ByteSize hlong
    rw [String.utf8ByteSize_append] at hsize
    have hempty : String.ofList cs = "" := String.utf8ByteSize_eq_zero_iff.1 (by omega)
    rw [hlong, hempty]
    exact startsWith_iff.2 ⟨"", by simp⟩

/-- Two starts of one text that have the same size are the same. -/
theorem eq_of_startsWith_of_size_eq {a b s : String} (ha : startsWith a s = true)
    (hb : startsWith b s = true) (h : a.utf8ByteSize = b.utf8ByteSize) : a = b := by
  obtain ⟨rest, rfl⟩ := startsWith_iff.1 (startsWith_of_size_le ha hb h.le)
  rw [String.utf8ByteSize_append] at h
  have hempty : rest = "" := String.utf8ByteSize_eq_zero_iff.1 (by omega)
  rw [hempty, String.append_empty]

end Text

namespace AliasSet

/-! ## First occurrences -/

theorem firstOccurrences_concat (xs : List String) (x : String) :
    firstOccurrences (xs ++ [x]) =
      if x ∈ firstOccurrences xs then firstOccurrences xs else firstOccurrences xs ++ [x] := by
  rw [firstOccurrences, List.foldl_append]
  rfl

theorem mem_firstOccurrences {xs : List String} {a : String} :
    a ∈ firstOccurrences xs ↔ a ∈ xs := by
  induction xs using List.reverseRecOn with
  | nil => simp [firstOccurrences]
  | append_singleton xs x ih =>
      rw [firstOccurrences_concat]
      split
      · next hx =>
          rw [ih, List.mem_append, List.mem_singleton]
          refine ⟨Or.inl, fun h => h.elim id ?_⟩
          rintro rfl
          exact ih.1 hx
      · simp [ih]

/-- The texts that are kept stand in the order of their first occurrence. -/
theorem pairwise_firstOccurrences (keep : String → Bool) (xs : List String) :
    (firstOccurrences (xs.filter keep)).Pairwise fun a b => xs.idxOf a < xs.idxOf b := by
  induction xs using List.reverseRecOn with
  | nil => simp [firstOccurrences]
  | append_singleton xs x ih =>
      have hmem : ∀ a ∈ firstOccurrences (xs.filter keep), a ∈ xs := fun a ha =>
        (List.mem_filter.1 (mem_firstOccurrences.1 ha)).1
      have hold : (firstOccurrences (xs.filter keep)).Pairwise
          fun a b => (xs ++ [x]).idxOf a < (xs ++ [x]).idxOf b := by
        refine ih.imp_of_mem fun {a b} ha hb hlt => ?_
        rw [List.idxOf_append_of_mem (hmem a ha), List.idxOf_append_of_mem (hmem b hb)]
        exact hlt
      rw [List.filter_append, List.filter_singleton]
      cases hx : keep x with
      | false => simpa using hold
      | true =>
          simp only [cond_true]
          rw [firstOccurrences_concat]
          split
          · exact hold
          · next hnew =>
              have hout : x ∉ xs := fun hin =>
                hnew (mem_firstOccurrences.2 (List.mem_filter.2 ⟨hin, hx⟩))
              rw [List.pairwise_append]
              refine ⟨hold, List.pairwise_singleton _ _, fun a ha b hb => ?_⟩
              obtain rfl := List.mem_singleton.1 hb
              rw [List.idxOf_append_of_mem (hmem a ha), List.idxOf_append_of_notMem hout]
              exact Nat.lt_add_right _ (List.idxOf_lt_length_of_mem (hmem a ha))

/-! ## The aliases of a set -/

/-- Whether an alias is tried before another one, where both are given in a list: longer ones are
tried first, and equally long ones in the order of their first occurrence. -/
def TriedBefore (xs : List String) (a b : String) : Prop :=
  b.utf8ByteSize < a.utf8ByteSize ∨
    a.utf8ByteSize = b.utf8ByteSize ∧ xs.idxOf a < xs.idxOf b

theorem TriedBefore.size_le {xs : List String} {a b : String} (h : TriedBefore xs a b) :
    b.utf8ByteSize ≤ a.utf8ByteSize := by
  rcases h with hlong | ⟨hsame, -⟩ <;> omega

theorem TriedBefore.ne {xs : List String} {a b : String} (h : TriedBefore xs a b) : a ≠ b := by
  rintro rfl
  rcases h with hlong | ⟨-, hfirst⟩ <;> omega

theorem mem_aliases_ofList {xs : List String} {a : String} :
    a ∈ (ofList xs).aliases ↔ a ∈ xs ∧ a ≠ "" := by
  simp [ofList, mem_firstOccurrences]

/-- Distinct aliases that are given longest first are kept as they are. -/
theorem ofList_of_pairwise {xs : List String} (hfirst : firstOccurrences (xs.filter (· ≠ "")) = xs)
    (hsorted : xs.Pairwise fun a b => b.utf8ByteSize ≤ a.utf8ByteSize) : ofList xs = ⟨xs⟩ := by
  rw [ofList, hfirst, List.mergeSort_of_pairwise (by simpa using hsorted)]

theorem pairwise_aliases_ofList (xs : List String) :
    (ofList xs).aliases.Pairwise (TriedBefore xs) := by
  have htrans : ∀ a b c : String, decide (b.utf8ByteSize ≤ a.utf8ByteSize) = true →
      decide (c.utf8ByteSize ≤ b.utf8ByteSize) = true →
      decide (c.utf8ByteSize ≤ a.utf8ByteSize) = true := by
    simp only [decide_eq_true_eq]
    omega
  have htotal : ∀ a b : String, (decide (b.utf8ByteSize ≤ a.utf8ByteSize) ||
      decide (a.utf8ByteSize ≤ b.utf8ByteSize)) = true := by
    simp only [Bool.or_eq_true, decide_eq_true_eq]
    omega
  have hsorted := List.pairwise_mergeSort htrans htotal (firstOccurrences (xs.filter (· ≠ "")))
  have hstable := pairwise_mergeSort_of_pairwise htrans htotal
    (pairwise_firstOccurrences (· ≠ "") xs)
  refine (hsorted.and hstable).imp fun {a b} h => ?_
  simp only [decide_eq_true_eq, decide_eq_false_iff_not] at h
  unfold TriedBefore
  omega

/-! ## The alias of a path -/

/-- The longest alias of a set that a path begins with. -/
structure IsLongestMatch (set : AliasSet) (path a : String) : Prop where
  mem : a ∈ set.aliases
  starts : Text.startsWith a path = true
  longest : ∀ b ∈ set.aliases, Text.startsWith b path = true → b.utf8ByteSize ≤ a.utf8ByteSize

theorem IsLongestMatch.unique {set : AliasSet} {path a b : String}
    (ha : set.IsLongestMatch path a) (hb : set.IsLongestMatch path b) : a = b := by
  have hle := hb.longest a ha.mem ha.starts
  have hge := ha.longest b hb.mem hb.starts
  exact Text.eq_of_startsWith_of_size_eq ha.starts hb.starts (by omega)

theorem match?_eq_none_iff {set : AliasSet} {path : String} :
    set.match? path = none ↔ ∀ a ∈ set.aliases, Text.startsWith a path = false := by
  simp [match?]

theorem isLongestMatch_of_match? {xs : List String} {path a : String}
    (h : (ofList xs).match? path = some a) : (ofList xs).IsLongestMatch path a := by
  obtain ⟨hstarts, before, after, hsplit, hbefore⟩ := List.find?_eq_some_iff_append.1 h
  have hordered := pairwise_aliases_ofList xs
  rw [hsplit, List.pairwise_append, List.pairwise_cons] at hordered
  refine ⟨by simp [hsplit], hstarts, fun b hb hmatch => ?_⟩
  rw [hsplit, List.mem_append, List.mem_cons] at hb
  rcases hb with hb | rfl | hb
  · exact absurd hmatch (by simpa using hbefore b hb)
  · exact Nat.le_refl _
  · exact (hordered.2.1.1 b hb).size_le

theorem match?_ofList_eq_some_iff {xs : List String} {path a : String} :
    (ofList xs).match? path = some a ↔ (ofList xs).IsLongestMatch path a := by
  refine ⟨isLongestMatch_of_match?, fun ha => ?_⟩
  cases hmatch : (ofList xs).match? path with
  | none =>
      have hnone := match?_eq_none_iff.1 hmatch a ha.mem
      rw [ha.starts] at hnone
      cases hnone
  | some b => rw [(isLongestMatch_of_match? hmatch).unique ha]

/-- Lists with the same members make sets that match the same. -/
theorem match?_ofList_congr {xs ys : List String} (h : ∀ a, a ∈ ys ↔ a ∈ xs) (path : String) :
    (ofList ys).match? path = (ofList xs).match? path := by
  have hmem : ∀ a, a ∈ (ofList ys).aliases ↔ a ∈ (ofList xs).aliases := by
    intro a
    rw [mem_aliases_ofList, mem_aliases_ofList, h]
  refine Option.ext fun a => ?_
  rw [match?_ofList_eq_some_iff, match?_ofList_eq_some_iff]
  constructor
  · rintro ⟨ha, hstarts, hlongest⟩
    exact ⟨(hmem a).1 ha, hstarts, fun b hb => hlongest b ((hmem b).2 hb)⟩
  · rintro ⟨ha, hstarts, hlongest⟩
    exact ⟨(hmem a).2 ha, hstarts, fun b hb => hlongest b ((hmem b).1 hb)⟩

/-- A set holds the non-empty texts of a list, each once, longer ones in front and equally long ones
in the order of their first occurrence. A path matches the longest of them that it begins with.
Hence what it matches, and what is left of it without that, depends on the members of the list, but
neither on their order nor on how often they occur. -/
theorem match?_ofList (xs : List String) :
    (ofList xs).aliases.Nodup ∧ "" ∉ (ofList xs).aliases ∧
      (∀ a, a ∈ (ofList xs).aliases ↔ a ∈ xs ∧ a ≠ "") ∧
      (ofList xs).aliases.Pairwise (TriedBefore xs) ∧
      (∀ path a, (ofList xs).match? path = some a ↔ (ofList xs).IsLongestMatch path a) ∧
      (∀ path, (ofList xs).match? path = none ↔
        ∀ a ∈ (ofList xs).aliases, Text.startsWith a path = false) ∧
      ∀ ys, (∀ a, a ∈ ys ↔ a ∈ xs) → ∀ path,
        (ofList ys).match? path = (ofList xs).match? path ∧
          (ofList ys).normalize path = (ofList xs).normalize path := by
  have hordered := pairwise_aliases_ofList xs
  refine ⟨hordered.imp TriedBefore.ne, fun hempty => (mem_aliases_ofList.1 hempty).2 rfl,
    fun a => mem_aliases_ofList, hordered, fun path a => match?_ofList_eq_some_iff,
    fun path => match?_eq_none_iff, fun ys hsame path => ?_⟩
  refine ⟨match?_ofList_congr hsame path, ?_⟩
  simp only [normalize, strip, match?_ofList_congr hsame]

/-- Two orders of the same aliases. Those of three bytes are kept in different orders, and nested
ones match the same. -/
theorem match?_ofList_reordered :
    let xs := ["é/", "@/", "~~/", "", "@/shared/", "@/"]
    let ys := ["@/shared/", "~~/", "é/", "", "@/"]
    ofList xs = ⟨["@/shared/", "é/", "~~/", "@/"]⟩ ∧
      ofList ys = ⟨["@/shared/", "~~/", "é/", "@/"]⟩ ∧
      (ofList ys).match? "@/shared/ui" = some "@/shared/" ∧
      (ofList ys).normalize "@\\shared/ui" = "ui" := by
  intro xs ys
  have hsizes : ["@/shared/", "~~/", "é/", "@/"].map String.utf8ByteSize = [9, 3, 3, 2] := by
    decide +kernel
  simp only [List.map_cons, List.map_nil, List.cons.injEq, and_true] at hsizes
  have hxs : ofList xs = ⟨["@/shared/", "é/", "~~/", "@/"]⟩ := by
    have hfirst : firstOccurrences (xs.filter (· ≠ "")) = ["é/", "@/", "~~/", "@/shared/"] := by
      decide +kernel
    rw [ofList, hfirst]
    simp [List.mergeSort, List.MergeSort.Internal.splitInTwo, hsizes]
  have hys : ofList ys = ⟨["@/shared/", "~~/", "é/", "@/"]⟩ := by
    have hfirst : firstOccurrences (ys.filter (· ≠ "")) = ["@/shared/", "~~/", "é/", "@/"] := by
      decide +kernel
    rw [ofList, hfirst]
    simp [List.mergeSort, List.MergeSort.Internal.splitInTwo, hsizes]
  have hsame : ∀ a, a ∈ ys ↔ a ∈ xs := by
    intro a
    simp only [xs, ys, List.mem_cons, List.not_mem_nil, or_false]
    tauto
  obtain ⟨-, -, -, -, -, -, hcongr⟩ := match?_ofList xs
  refine ⟨hxs, hys, ?_, ?_⟩
  · rw [(hcongr ys hsame _).1, hxs]
    decide +kernel
  · rw [(hcongr ys hsame _).2, hxs]
    decide +kernel

end AliasSet

end SliceLint
