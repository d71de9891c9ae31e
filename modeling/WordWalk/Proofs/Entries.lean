import Mathlib.Data.List.Nodup
import Std.Data.ExtTreeMap
import Std.Data.TreeMap

/-! # Tables and lists of entries

A table that is made from a list of entries holds the last entry of every name. If all names
differ it holds the entries themselves, whatever order they come in.
-/

namespace WordWalk

variable {β γ : Type} {entries : List (String × β)} {name : String} {x : β}

theorem lookup_eq_some_iff (single : (entries.map Prod.fst).Nodup) :
    entries.lookup name = some x ↔ (name, x) ∈ entries := by
  constructor
  · intro found
    obtain ⟨front, back, split, _⟩ := List.lookup_eq_some_iff.mp found
    simp [split]
  · intro member
    induction entries with
    | nil => cases member
    | cons first rest ih =>
        rw [List.map_cons, List.nodup_cons] at single
        cases member with
        | head => exact List.lookup_cons_self
        | tail _ later =>
            have other : name ≠ first.1 := by
              intro same
              exact single.1 (List.mem_map.mpr ⟨_, later, same⟩)
            rw [List.lookup_cons, beq_false_of_ne other]
            exact ih single.2 later

theorem lookup_reverse (entries : List (String × β)) (name : String) :
    entries.reverse.lookup name =
      entries.findSomeRev? fun (other, x) => if compare other name = .eq then some x else none := by
  rw [List.findSomeRev?_eq_findSome?_reverse, List.lookup_eq_findSome?]
  congr 1
  funext entry
  refine if_congr ?_ rfl rfl
  rw [beq_iff_eq, Std.LawfulEqCmp.compare_eq_iff_eq]
  exact eq_comm

theorem nodup_of_names (single : (entries.map Prod.fst).Nodup) : entries.Nodup := .of_map Prod.fst single

namespace TreeMap

theorem getElem?_ofList (entries : List (String × β)) (name : String) :
    (Std.TreeMap.ofList entries)[name]? = entries.reverse.lookup name := by
  rw [Std.TreeMap.ofList_eq_insertMany_empty, Std.TreeMap.getElem?_insertMany_list, lookup_reverse,
    Std.TreeMap.getElem?_emptyc, Option.or_none]

theorem names_nodup (table : Std.TreeMap String β) : (table.toList.map Prod.fst).Nodup := by
  rw [Std.TreeMap.map_fst_toList_eq_keys]
  exact Std.TreeMap.nodup_keys

theorem toList_eq {table other : Std.TreeMap String β} (same : ∀ name : String, table[name]? = other[name]?) :
    table.toList = other.toList := by
  apply Std.TreeMap.Equiv.toList_eq
  rw [Std.TreeMap.equiv_iff_toList_perm,
    List.perm_ext_iff_of_nodup (nodup_of_names (names_nodup _)) (nodup_of_names (names_nodup _))]
  rintro ⟨name, x⟩
  rw [Std.TreeMap.mem_toList_iff_getElem?_eq_some, same, Std.TreeMap.mem_toList_iff_getElem?_eq_some]

theorem toList_ofList_map (f : β → γ) (entries : List (String × β)) :
    (Std.TreeMap.ofList (entries.map fun entry => (entry.1, f entry.2))).toList =
      (Std.TreeMap.ofList entries).toList.map fun entry => (entry.1, f entry.2) := by
  have values : ((Std.TreeMap.ofList entries).map fun _ => f).toList =
      (Std.TreeMap.ofList entries).toList.map fun entry => (entry.1, f entry.2) := Std.TreeMap.toList_map
  rw [← values]
  apply toList_eq
  intro name
  rw [Std.TreeMap.getElem?_map, getElem?_ofList, getElem?_ofList, ← List.map_reverse,
    List.lookup_eq_findSome?, List.lookup_eq_findSome?, List.findSome?_map, List.map_findSome?]
  congr 1
  funext entry
  simp only [Function.comp_apply]
  split <;> rfl

theorem toList_ofList_perm (single : (entries.map Prod.fst).Nodup) :
    (Std.TreeMap.ofList entries).toList.Perm entries := by
  rw [List.perm_ext_iff_of_nodup (nodup_of_names (names_nodup _)) (nodup_of_names single)]
  rintro ⟨name, x⟩
  have reversed : (entries.reverse.map Prod.fst).Nodup := by rwa [List.map_reverse, List.nodup_reverse]
  rw [Std.TreeMap.mem_toList_iff_getElem?_eq_some, getElem?_ofList, lookup_eq_some_iff reversed,
    List.mem_reverse]

end TreeMap

namespace ExtTreeMap

theorem getElem?_ofList (entries : List (String × β)) (name : String) :
    (Std.ExtTreeMap.ofList entries)[name]? = entries.reverse.lookup name := by
  rw [Std.ExtTreeMap.ofList_eq_insertMany_empty, Std.ExtTreeMap.getElem?_insertMany_list, lookup_reverse,
    Std.ExtTreeMap.getElem?_empty, Option.or_none]

theorem names_nodup (table : Std.ExtTreeMap String β) : (table.toList.map Prod.fst).Nodup := by
  rw [Std.ExtTreeMap.map_fst_toList_eq_keys]
  exact Std.ExtTreeMap.nodup_keys

theorem toList_ofList_perm (single : (entries.map Prod.fst).Nodup) :
    (Std.ExtTreeMap.ofList entries).toList.Perm entries := by
  rw [List.perm_ext_iff_of_nodup (nodup_of_names (names_nodup _)) (nodup_of_names single)]
  rintro ⟨name, x⟩
  have reversed : (entries.reverse.map Prod.fst).Nodup := by rwa [List.map_reverse, List.nodup_reverse]
  rw [Std.ExtTreeMap.mem_toList_iff_getElem?_eq_some, getElem?_ofList, lookup_eq_some_iff reversed,
    List.mem_reverse]

/-- The entries of a table make the table again, in any order. -/
theorem ofList_of_perm {table : Std.ExtTreeMap String β} (same : entries.Perm table.toList) :
    Std.ExtTreeMap.ofList entries = table := by
  have single : (entries.map Prod.fst).Nodup := (same.map Prod.fst).nodup_iff.mpr (names_nodup table)
  exact Std.ExtTreeMap.ext_toList ((toList_ofList_perm single).trans same)

/-- Replacing earlier entries by later ones first makes no difference. -/
theorem ofList_ofList (entries : List (String × β)) :
    Std.ExtTreeMap.ofList (Std.TreeMap.ofList entries).toList = Std.ExtTreeMap.ofList entries := by
  apply Std.ExtTreeMap.ext_getElem?
  intro name
  have reversed : ((Std.TreeMap.ofList entries).toList.reverse.map Prod.fst).Nodup := by
    rw [List.map_reverse, List.nodup_reverse]
    exact TreeMap.names_nodup _
  rw [getElem?_ofList, getElem?_ofList entries, ← TreeMap.getElem?_ofList entries]
  apply Option.ext
  intro x
  rw [lookup_eq_some_iff reversed, List.mem_reverse, Std.TreeMap.mem_toList_iff_getElem?_eq_some]

end ExtTreeMap

end WordWalk
