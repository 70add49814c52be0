import Mathlib.Data.List.Nodup

/-! Entries under names. Where no name comes twice, an entry is found under its name, and what is
found is an entry. -/

namespace MinecraftWire

variable {α : Type} {name : String} {a : α} {entries : List (String × α)}

theorem lookup_cons_eq_ite (name : String) (a : α) (entries : List (String × α)) (n : String) :
    ((name, a) :: entries).lookup n = if n = name then some a else entries.lookup n := by
  rw [List.lookup_cons, beq_eq_decide]
  by_cases h : n = name <;> simp [h]

theorem mem_of_lookup_eq_some (h : entries.lookup name = some a) : (name, a) ∈ entries := by
  rw [List.lookup_eq_some_iff] at h
  obtain ⟨front, back, rfl, -⟩ := h
  exact List.mem_append_right _ List.mem_cons_self

theorem lookup_eq_none_of_not_mem (h : name ∉ entries.map Prod.fst) : entries.lookup name = none := by
  rw [List.lookup_eq_none_iff]
  intro e he
  simpa using fun heq => h (List.mem_map.mpr ⟨e, he, Eq.symm heq⟩)

/-- Where the names before and after are all different, none of those after is found before. -/
theorem lookup_eq_none {names : List String} (h : (entries.map Prod.fst ++ name :: names).Nodup) :
    entries.lookup name = none :=
  lookup_eq_none_of_not_mem fun hmem =>
    (List.nodup_append.mp h).2.2 name hmem name List.mem_cons_self rfl

theorem lookup_eq_some_of_mem (hnodup : (entries.map Prod.fst).Nodup) (h : (name, a) ∈ entries) :
    entries.lookup name = some a := by
  induction entries with
  | nil => contradiction
  | cons e entries ih =>
    obtain ⟨other, b⟩ := e
    rw [List.map_cons, List.nodup_cons] at hnodup
    rw [lookup_cons_eq_ite]
    rcases List.mem_cons.mp h with heq | hmem
    · obtain ⟨rfl, rfl⟩ := Prod.mk.inj heq
      exact if_pos rfl
    · have hname : name ≠ other := by
        rintro rfl
        exact hnodup.1 (List.mem_map.mpr ⟨_, hmem, rfl⟩)
      rw [if_neg hname]
      exact ih hnodup.2 hmem

end MinecraftWire
