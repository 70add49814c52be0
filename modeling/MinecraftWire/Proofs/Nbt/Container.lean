import Mathlib.Data.List.InsertIdx
import Mathlib.Data.List.Nodup
import MinecraftWire.Nbt.Container
import Std.Data.HashMap.Lemmas

/-! The operations on lists and compounds. A push says which elements a list takes. The index of a
compound tells where each name stands among the entries and knows no other names, and every
operation keeps it so; the names of a compound are then all different, and what is found under a
name is what stands there. -/

namespace MinecraftWire.Nbt

theorem TagList.push_eq_ok_iff {l l' : TagList} {t : Tag} : l.push t = .ok l' ↔
    t.kind ≠ .endMark ∧ (l.kind = .endMark ∨ l.kind = t.kind) ∧ l' = ⟨t.kind, l.items.push t⟩ := by
  unfold TagList.push
  by_cases hend : t.kind = .endMark
  · simp [hend]
  rw [if_neg hend]
  by_cases hempty : l.kind = .endMark
  · simp [hend, hempty, eq_comm]
  rw [if_neg hempty]
  by_cases hkind : l.kind = t.kind
  · simp [hend, hkind, eq_comm]
  · simp [hempty, hkind]

namespace Compound

variable {c c' : Compound} {name : String} {t : Tag}

/-- The names of the children, in order. -/
def names (c : Compound) : List String :=
  c.entries.toList.map Prod.fst

/-- The index tells the place of each name, and knows no other names. -/
def Coherent (c : Compound) : Prop :=
  ∀ (name : String) (i : Nat), c.index[name]? = some i ↔ c.names[i]? = some name

theorem coherent_empty : empty.Coherent := by
  intro name i
  simp [empty, names]

/-! ### What the index tells -/

theorem Coherent.nodup (h : c.Coherent) : c.names.Nodup := by
  rw [List.nodup_iff_getElem?_ne_getElem?]
  intro i j hij hj heq
  have hlast : c.names[j]? = some c.names[j] := List.getElem?_eq_getElem hj
  have hi := (h _ i).mpr (heq.trans hlast)
  rw [(h _ j).mpr hlast] at hi
  exact absurd (Option.some.inj hi) (Nat.ne_of_gt hij)

theorem Coherent.contains_iff (h : c.Coherent) : c.contains name ↔ name ∈ c.names := by
  rw [contains, Std.HashMap.contains_iff_mem, List.mem_iff_getElem?,
    Std.HashMap.mem_iff_isSome_getElem?, Option.isSome_iff_exists]
  exact exists_congr fun i => h name i

/-- A name that the index knows stands at one place, and its child there. -/
theorem Coherent.entry_of_index (h : c.Coherent) {i : Nat} (hi : c.index[name]? = some i) :
    ∃ t, c.entries.toList[i]? = some (name, t) := by
  have hname := (h name i).mp hi
  rw [names, List.getElem?_map, Option.map_eq_some_iff] at hname
  obtain ⟨⟨name, t⟩, hentry, rfl⟩ := hname
  exact ⟨t, hentry⟩

theorem Coherent.get?_eq_some_iff (h : c.Coherent) :
    c.get? name = some t ↔ (name, t) ∈ c.entries.toList := by
  rw [get?, List.mem_iff_getElem?]
  constructor
  · intro hget
    split at hget
    · rename_i i hi
      obtain ⟨u, hentry⟩ := h.entry_of_index hi
      rw [← Array.getElem?_toList, hentry] at hget
      obtain rfl := Option.some.inj hget
      exact ⟨i, hentry⟩
    · contradiction
  · rintro ⟨i, hentry⟩
    have hi : c.index[name]? = some i := by
      rw [h name i, names, List.getElem?_map, hentry]
      rfl
    rw [hi]
    show c.entries[i]?.map Prod.snd = _
    rw [← Array.getElem?_toList, hentry]
    rfl

/-! ### Insertion -/

theorem insert_eq_ok_iff : c.insert name t = .ok c' ↔
    name ≠ "" ∧ t.kind ≠ .endMark ∧ c.contains name = false ∧
      c' = ⟨c.entries.push (name, t), c.index.insert name c.entries.size⟩ := by
  unfold insert contains
  by_cases hempty : name.isEmpty
  · simp [String.isEmpty_iff.mp hempty]
  have hname : name ≠ "" := fun h => hempty (String.isEmpty_iff.mpr h)
  by_cases hkind : t.kind = .endMark
  · rw [if_neg hempty, if_pos hkind]
    simp [hkind]
  rw [if_neg hempty, if_neg hkind]
  rcases c.index.contains name <;> simp [hname, hkind, eq_comm]

theorem Coherent.insert (h : c.Coherent) (hinsert : c.insert name t = .ok c') : c'.Coherent := by
  obtain ⟨-, -, hnew, rfl⟩ := insert_eq_ok_iff.mp hinsert
  have hnew : name ∉ c.names := fun hmem => by
    rw [h.contains_iff.mpr hmem] at hnew
    contradiction
  intro other i
  have hsize : c.names.length = c.entries.size := by
    rw [names, List.length_map, Array.length_toList]
  have hnames : names ⟨c.entries.push (name, t), c.index.insert name c.entries.size⟩ =
      c.names ++ [name] := by
    simp [names]
  rw [hnames, Std.HashMap.getElem?_insert, beq_eq_decide, ← hsize, List.getElem?_append]
  by_cases hother : name = other
  · subst hother
    rw [decide_eq_true rfl, if_pos rfl]
    split
    · rename_i hlt
      constructor
      · rintro ⟨⟩
        exact absurd hlt (Nat.lt_irrefl _)
      · exact fun hi => absurd (List.mem_of_getElem? hi) hnew
    · rw [List.getElem?_singleton]
      grind
  · rw [decide_eq_false hother, if_neg Bool.false_ne_true, h other i]
    split
    · exact Iff.rfl
    · rename_i hge
      rw [List.getElem?_eq_none (Nat.le_of_not_lt hge), List.getElem?_singleton]
      grind

/-! ### Replacement -/

theorem entries_replace {i : Nat} (hi : c.index[name]? = some i) :
    (c.replace name t).2.entries.toList = c.entries.toList.modify i fun e => (e.1, t) := by
  rw [replace, hi]
  exact Array.toList_modify

theorem replace_of_index_none (hi : c.index[name]? = none) : (c.replace name t).2 = c := by
  rw [replace, hi]

theorem names_replace (c : Compound) (name : String) (t : Tag) :
    (c.replace name t).2.names = c.names := by
  rcases hi : c.index[name]? with _ | i
  · rw [replace_of_index_none hi]
  · rw [names, entries_replace hi, names]
    apply List.ext_getElem?
    intro j
    rw [List.getElem?_map, List.getElem?_modify, List.getElem?_map]
    rcases c.entries.toList[j]? with _ | e
    · rfl
    · show some _ = some _
      split <;> rfl

theorem index_replace (c : Compound) (name : String) (t : Tag) :
    (c.replace name t).2.index = c.index := by
  unfold replace
  split <;> rfl

theorem Coherent.replace (h : c.Coherent) (name : String) (t : Tag) :
    (c.replace name t).2.Coherent := by
  intro other i
  rw [index_replace, names_replace]
  exact h other i

theorem mem_entries_replace {e : String × Tag} (he : e ∈ (c.replace name t).2.entries.toList) :
    e ∈ c.entries.toList ∨ e.1 ∈ c.names ∧ e.2 = t := by
  rcases hi : c.index[name]? with _ | i
  · rw [replace_of_index_none hi] at he
    exact .inl he
  · rw [entries_replace hi, List.mem_iff_getElem?] at he
    obtain ⟨j, hj⟩ := he
    rw [List.getElem?_modify, Option.map_eq_map, Option.map_eq_some_iff] at hj
    obtain ⟨old, hold, rfl⟩ := hj
    have hmem := List.mem_of_getElem? hold
    split
    · have hname : old.1 ∈ c.names := List.mem_map_of_mem hmem
      exact .inr ⟨hname, rfl⟩
    · exact .inl hmem

/-! ### Removal -/

theorem remove_of_index_none (hi : c.index[name]? = none) : (c.remove name).2 = c := by
  rw [remove, hi]

theorem entries_remove {i : Nat} (hi : c.index[name]? = some i) :
    (c.remove name).2.entries.toList = c.entries.toList.eraseIdx i := by
  rw [remove, hi]
  simp

theorem entries_remove_sublist (c : Compound) (name : String) :
    (c.remove name).2.entries.toList.Sublist c.entries.toList := by
  rcases hi : c.index[name]? with _ | i
  · rw [remove_of_index_none hi]
  · rw [entries_remove hi]
    exact List.eraseIdx_sublist _ _

theorem Coherent.remove (h : c.Coherent) (name : String) : (c.remove name).2.Coherent := by
  rcases hi : c.index[name]? with _ | i
  · rw [remove_of_index_none hi]
    exact h
  · intro other j
    have hat := (h name i).mp hi
    have hplace : ∀ k, c.names[k]? = some name → k = i := fun k hk => by
      rw [← h name k, hi] at hk
      exact (Option.some.inj hk).symm
    have hindex : (c.remove name).2.index[other]? =
        if name == other then none
        else c.index[other]?.map fun k => if i < k then k - 1 else k := by
      rw [Compound.remove, hi]
      simp only [Std.HashMap.getElem?_map, Std.HashMap.getElem?_erase]
      split <;> rfl
    rw [hindex, names, entries_remove hi, ← List.eraseIdx_map, List.getElem?_eraseIdx]
    change _ ↔ (if j < i then c.names[j]? else c.names[j + 1]?) = some other
    by_cases hother : name = other
    · -- the name is gone: it stood at one place only
      subst hother
      simp only [beq_self_eq_true, if_true, reduceCtorEq, false_iff]
      split
      · exact fun hj => by have := hplace j hj; omega
      · exact fun hj => by have := hplace (j + 1) hj; omega
    · have hne : ∀ k, c.names[k]? = some other → k ≠ i := by
        rintro k hk rfl
        exact hother (Option.some.inj (hat.symm.trans hk))
      rw [if_neg (by simpa using hother), Option.map_eq_some_iff]
      constructor
      · rintro ⟨k, hk, rfl⟩
        have hk' := (h other k).mp hk
        have := hne k hk'
        split
        · rw [if_neg (by omega), Nat.sub_add_cancel (by omega)]
          exact hk'
        · rw [if_pos (by omega)]
          exact hk'
      · intro hj
        split at hj
        · exact ⟨j, (h other j).mpr hj, if_neg (by omega)⟩
        · have := hne (j + 1) hj
          exact ⟨j + 1, (h other (j + 1)).mpr hj, by rw [if_pos (by omega), Nat.add_sub_cancel]⟩

end Compound

end MinecraftWire.Nbt
