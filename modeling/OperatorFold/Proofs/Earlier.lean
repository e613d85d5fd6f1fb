import Mathlib.Data.List.Basic

/-! # First come

What becomes of an entry of a list may depend on the entries in front of it: `withEarlier` lists
both together. Where a key can be taken only once, the entries that find theirs free are the
newcomers (`newcomers`). A lookup by key does not see the others, since each of them stands behind
one with the same key (`find?_append_newcomers`).
-/

namespace OperatorFold

variable {α κ : Type}

/-- Every entry of a list, with the entries in front of it. -/
def withEarlier : List α → List (List α × α)
  | [] => []
  | a :: rest => ([], a) :: (withEarlier rest).map fun entry => (a :: entry.1, entry.2)

/-- An entry with those in front of it cuts a list in two. -/
theorem exists_of_mem_withEarlier {entries : List α} {entry : List α × α}
    (h : entry ∈ withEarlier entries) : ∃ behind, entries = entry.1 ++ entry.2 :: behind := by
  induction entries generalizing entry with
  | nil => cases h
  | cons a rest ih =>
    rcases List.mem_cons.mp h with rfl | h
    · exact ⟨rest, rfl⟩
    · obtain ⟨later, hlater, rfl⟩ := List.mem_map.mp h
      obtain ⟨behind, hrest⟩ := ih hlater
      exact ⟨behind, congrArg (a :: ·) hrest⟩

/-- The entries whose key neither those that are `present` nor any in front of them have. -/
def newcomers [DecidableEq κ] (key : α → κ) (present entries : List α) : List α :=
  ((withEarlier entries).filter fun entry =>
    key entry.2 ∉ (present ++ entry.1).map key).map Prod.snd

section Newcomers

variable [DecidableEq κ] {key : α → κ} {present : List α} {a : α}

/-- Behind an entry its key is no longer free. -/
theorem newcomers_cons (key : α → κ) (present : List α) (a : α) (rest : List α) :
    newcomers key present (a :: rest) =
      (if key a ∈ present.map key then [] else [a]) ++ newcomers key (present ++ [a]) rest := by
  have hbehind : ((withEarlier rest).map fun entry => (a :: entry.1, entry.2)).filter (fun entry =>
      key entry.2 ∉ (present ++ entry.1).map key) =
      ((withEarlier rest).filter fun entry =>
        key entry.2 ∉ (present ++ [a] ++ entry.1).map key).map
          fun entry => (a :: entry.1, entry.2) := by
    rw [List.filter_map]
    simp only [Function.comp_def, List.append_assoc, List.singleton_append]
  rw [newcomers, withEarlier, List.filter_cons, hbehind, List.append_nil]
  by_cases h : key a ∈ present.map key
  · simp [h, newcomers, Function.comp_def]
  · simp [h, newcomers, Function.comp_def]

/-- It does not matter how often a key is taken. -/
theorem newcomers_append_of_taken (h : key a ∈ present.map key) (entries : List α) :
    newcomers key (present ++ [a]) entries = newcomers key present entries := by
  have hsame (before : List α) (k : κ) :
      k ∈ (present ++ [a] ++ before).map key ↔ k ∈ (present ++ before).map key := by
    simp only [List.map_append, List.mem_append, List.map_singleton, List.mem_singleton]
    constructor
    · rintro ((hk | rfl) | hk)
      · exact .inl hk
      · exact .inl h
      · exact .inr hk
    · exact Or.imp_left .inl
  simp only [newcomers, hsame]

/-- An entry with a taken key is no newcomer. -/
theorem newcomers_cons_of_taken (h : key a ∈ present.map key) (rest : List α) :
    newcomers key present (a :: rest) = newcomers key present rest := by
  rw [newcomers_cons, if_pos h, newcomers_append_of_taken h, List.nil_append]

/-- An entry with a free key is a newcomer, and takes its key from those behind it. -/
theorem newcomers_cons_of_free (h : key a ∉ present.map key) (rest : List α) :
    newcomers key present (a :: rest) = a :: newcomers key (present ++ [a]) rest := by
  rw [newcomers_cons, if_neg h, List.singleton_append]

/-- A lookup by key finds the same whether or not the entries are left out that found their key
taken. -/
theorem find?_append_newcomers (key : α → κ) (present entries : List α) (k : κ) :
    (present ++ newcomers key present entries).find? (key · = k) =
      (present ++ entries).find? (key · = k) := by
  induction entries generalizing present with
  | nil => rfl
  | cons a rest ih =>
    by_cases h : key a ∈ present.map key
    · rw [newcomers_cons_of_taken h, ih, List.find?_append, List.find?_append, List.find?_cons]
      by_cases hk : key a = k
      · -- something with the key of `a` is found before `a` would be
        obtain ⟨b, hb, hkey⟩ := List.mem_map.mp h
        have hfound : (present.find? (key · = k)).isSome := by
          rw [List.find?_isSome]
          exact ⟨b, hb, decide_eq_true (hkey.trans hk)⟩
        rw [Option.or_of_isSome hfound, Option.or_of_isSome hfound]
      · rw [decide_eq_false hk]
    · rw [newcomers_cons_of_free h, List.append_cons, ih, ← List.append_cons]

/-! ## Adding entries one by one -/

/-- No entry of a key is found if no entry has it. -/
theorem find?_key_eq_none {entries : List α} {k : κ} :
    entries.find? (key · = k) = none ↔ k ∉ entries.map key := by
  simp only [List.find?_eq_none, decide_eq_true_eq, List.mem_map, not_exists, not_and]

/-- Adds an entry behind the others, unless its key is taken. -/
def addNew (key : α → κ) (present : List α) (a : α) : List α :=
  if key a ∈ present.map key then present else present ++ [a]

/-- One by one, just the newcomers are added. -/
theorem foldl_addNew (key : α → κ) (present entries : List α) :
    entries.foldl (addNew key) present = present ++ newcomers key present entries := by
  induction entries generalizing present with
  | nil => exact (List.append_nil _).symm
  | cons a rest ih =>
    rw [List.foldl_cons, addNew]
    by_cases h : key a ∈ present.map key
    · rw [if_pos h, ih, newcomers_cons_of_taken h]
    · rw [if_neg h, ih, newcomers_cons_of_free h, ← List.append_cons]

end Newcomers

end OperatorFold
