import Mathlib.Data.List.Forall2
import MinecraftWire.Proofs.Nbt.Conversion

/-! What one step of the conversion of native values comes to. A scalar is converted, or is a
misfit, or is out of range. A container is converted if all its parts are, and otherwise fails as
one of them does; only a free array may fail for elements of several kinds, and an object for an
empty key. -/

namespace MinecraftWire

/-- Values are converted one after another until one fails. -/
theorem mapM_outcome {α β ε : Type} (f : α → Except ε β) (xs : List α) :
    (∃ ys, List.Forall₂ (fun x y => f x = .ok y) xs ys ∧ xs.mapM f = .ok ys) ∨
    ∃ x ∈ xs, ∃ e, f x = .error e ∧ xs.mapM f = .error e := by
  induction xs with
  | nil => exact .inl ⟨[], .nil, rfl⟩
  | cons x xs ih =>
    rw [List.mapM_cons]
    rcases hx : f x with e | y
    · exact .inr ⟨x, List.mem_cons_self, e, hx, rfl⟩
    · rcases ih with ⟨ys, hys, hmap⟩ | ⟨other, hmem, e, hother, hmap⟩
      · exact .inl ⟨y :: ys, .cons hx hys, by rw [hmap]; rfl⟩
      · exact .inr ⟨other, List.mem_cons_of_mem _ hmem, e, hother, by rw [hmap]; rfl⟩

theorem exists_left_of_forall₂ {α β : Type} {R : α → β → Prop} {xs : List α} {ys : List β}
    (h : List.Forall₂ R xs ys) {y : β} (hy : y ∈ ys) : ∃ x ∈ xs, R x y := by
  induction h with
  | nil => contradiction
  | cons hxy _ ih =>
    rcases List.mem_cons.mp hy with rfl | hy
    · exact ⟨_, List.mem_cons_self, hxy⟩
    · obtain ⟨x, hx, hR⟩ := ih hy
      exact ⟨x, List.mem_cons_of_mem _ hx, hR⟩

theorem exists_right_of_forall₂ {α β : Type} {R : α → β → Prop} {xs : List α} {ys : List β}
    (h : List.Forall₂ R xs ys) {x : α} (hx : x ∈ xs) : ∃ y ∈ ys, R x y :=
  exists_left_of_forall₂ (R := fun y x => R x y) h.flip hx

/-! ### Types of values -/

/-- The types of JSON. -/
inductive JsonType where
  | null | boolean | number | string | array | object
  deriving DecidableEq

def Native.type : Native → JsonType
  | null => .null
  | bool _ => .boolean
  | integer _ | real _ => .number
  | string _ => .string
  | array _ => .array
  | object _ => .object

theorem Native.exists_toDouble {v : Native} (h : v.type = .number) :
    ∃ x, v.toDouble? = some x := by
  cases v with
  | integer n => exact ⟨_, rfl⟩
  | real x => exact ⟨_, rfl⟩
  | _ => contradiction

namespace Nbt

namespace Schema

/-- The bounds of the integers of a schema. -/
def bounds? : Schema → Option (Int × Int)
  | byte => some (-2 ^ 7, 2 ^ 7 - 1)
  | short => some (-2 ^ 15, 2 ^ 15 - 1)
  | int => some (-2 ^ 31, 2 ^ 31 - 1)
  | long => some (-2 ^ 63, 2 ^ 63 - 1)
  | _ => none

/-- The schema of each element of an array. -/
def element? : Schema → Option Schema
  | list element => some element
  | byteArray => some byte
  | intArray => some int
  | longArray => some long
  | _ => none

/-- The values that a schema is for; there is nothing that a null stands for. -/
def Takes : Option Schema → Native → Prop
  | none, v => v.type ≠ .null
  | some byte, v | some short, v | some int, v | some long, v => ∃ n, v.toInt? = some n
  | some float, v | some double, v => v.type = .number
  | some string, v => v.type = .string
  | some (list _), v | some byteArray, v | some intArray, v | some longArray, v => v.type = .array
  | some (compound _), v => v.type = .object

theorem takes_integer_iff {s : Schema} {b : Int × Int} (hb : s.bounds? = some b) {v : Native} :
    Takes (some s) v ↔ ∃ n, v.toInt? = some n := by
  cases s <;> first | contradiction | rfl

end Schema

open Schema

namespace Tag

/-- A value that is not of a schema is told apart at once. -/
theorem ofNative_misfit {s : Schema} {v : Native} (h : ¬ Takes (some s) v) :
    ofNative (some s) v = mismatch s v := by
  cases s <;> cases v <;> first | rfl | exact absurd rfl h | exact absurd ⟨_, rfl⟩ h

/-! ### Containers from their parts -/

theorem ofNatives_eq (o : Option Schema) (items : List Native) :
    ofNatives o items = items.map (ofNative o) := by
  induction items with
  | nil => rfl
  | cons v items ih => rw [ofNatives, ih, List.map_cons]

theorem ofNative_list (element : Schema) (items : List Native) :
    ofNative (some (.list element)) (.array items) =
      ((TagList.ofKind element.kind).ofResults (items.map (ofNative (some element)))).map
        TagList.toTag := by
  rw [← ofNatives_eq]
  rfl

theorem ofNative_compound (schemas : List (String × Schema)) (fields : List (String × Native)) :
    ofNative (some (.compound schemas)) (.object fields) =
      (ofFields schemas .empty fields).map Compound.toTag := rfl

theorem ofNative_free_object (fields : List (String × Native)) :
    ofNative none (.object fields) = ofNative (some (.compound [])) (.object fields) := rfl

theorem ofNative_byteArray (items : List Native) : ofNative (some .byteArray) (.array items) =
    (integerArray Int8 .byteArray (.array items)).map byteArray := rfl

theorem ofNative_intArray (items : List Native) : ofNative (some .intArray) (.array items) =
    (integerArray Int32 .intArray (.array items)).map intArray := rfl

theorem ofNative_longArray (items : List Native) : ofNative (some .longArray) (.array items) =
    (integerArray Int64 .longArray (.array items)).map longArray := rfl

/-! ### Integers -/

theorem ofNative_integer {s : Schema} {b : Int × Int} (hb : s.bounds? = some b) {v : Native}
    {n : Int} (hv : v.toInt? = some n) : ofNative (some s) v = integer s.kind n := by
  cases v with
  | bool _ | integer _ =>
    obtain rfl := Option.some.inj hv
    cases s <;> first | contradiction | rfl
  | _ => contradiction

theorem map_narrowAs_outcome {α : Type} [FixedInteger α] [FixedInteger.Exact α] (make : α → Tag)
    {kind : TagKind} (hkind : ∀ x, (make x).kind = kind)
    (hint : ∀ x, (make x).toInt? = some (FixedInteger.toInt x)) (n : Int) :
    ((FixedInteger.lower α ≤ n ∧ n ≤ FixedInteger.upper α) ∧
      ∃ t, (narrowAs kind.name α n).map make = .ok t ∧ t.kind = kind ∧ t.toInt? = some n) ∨
    ¬ (FixedInteger.lower α ≤ n ∧ n ≤ FixedInteger.upper α) ∧
      ∃ fault, (narrowAs kind.name α n).map make = .error fault ∧ fault.kind = .range := by
  rcases FixedInteger.narrowAs_outcome α kind.name n with ⟨hn, x, hx, hxn⟩ | ⟨hn, fault, hx, hfault⟩
  · exact .inl ⟨hn, make x, by rw [hx]; rfl, hkind x, by rw [hint, hxn]⟩
  · exact .inr ⟨hn, fault, by rw [hx]; rfl, hfault⟩

theorem integer_outcome {s : Schema} {b : Int × Int} (hb : s.bounds? = some b) (n : Int) :
    ((b.1 ≤ n ∧ n ≤ b.2) ∧ ∃ t, integer s.kind n = .ok t ∧ t.kind = s.kind ∧ t.toInt? = some n) ∨
    ¬ (b.1 ≤ n ∧ n ≤ b.2) ∧ ∃ fault, integer s.kind n = .error fault ∧ fault.kind = .range := by
  cases s with
  | byte =>
    obtain rfl := Option.some.inj hb
    exact map_narrowAs_outcome byte (fun _ => rfl) (fun _ => rfl) n
  | short =>
    obtain rfl := Option.some.inj hb
    exact map_narrowAs_outcome short (fun _ => rfl) (fun _ => rfl) n
  | int =>
    obtain rfl := Option.some.inj hb
    exact map_narrowAs_outcome int (fun _ => rfl) (fun _ => rfl) n
  | long =>
    obtain rfl := Option.some.inj hb
    exact map_narrowAs_outcome long (fun _ => rfl) (fun _ => rfl) n
  | _ => contradiction

theorem integers_outcome (s : Schema) (items : List Native) :
    (∃ ns, items.map Native.toInt? = ns.map some ∧ integers s (.array items) = .ok ns) ∨
    ∃ v ∈ items, v.toInt? = none ∧ ∃ fault, integers s (.array items) = .error fault ∧
      fault.kind = .schemaMismatch := by
  have heq : integers s (.array items) =
      items.mapM fun v => v.toInt?.elim (mismatch s v) Except.ok := by
    refine congrArg (items.mapM ·) (funext fun v => ?_)
    rcases v.toInt? with _ | n <;> rfl
  rw [heq]
  rcases mapM_outcome (fun v : Native => v.toInt?.elim (mismatch s v) Except.ok) items with
    ⟨ns, hns, hmap⟩ | ⟨v, hv, fault, hfault, hmap⟩
  · refine .inl ⟨ns, ?_, hmap⟩
    rw [← List.forall₂_eq_eq_eq, List.forall₂_map_left_iff, List.forall₂_map_right_iff]
    refine hns.imp fun v n h => ?_
    rcases hv : v.toInt? with _ | m <;> rw [hv] at h
    · contradiction
    · exact congrArg some (Except.ok.inj h)
  · rcases hint : v.toInt? with _ | n <;> rw [hint] at hfault
    · obtain rfl := Except.error.inj hfault
      exact .inr ⟨v, hv, hint, _, hmap, rfl⟩
    · contradiction

/-- The integers of an array are narrowed if they all are integers and all fit. -/
theorem integerArray_outcome (α : Type) [FixedInteger α] [FixedInteger.Exact α] (s : Schema)
    (items : List Native) :
    (∃ vs : List α, items.map Native.toInt? = vs.map (fun x => some (FixedInteger.toInt x)) ∧
      integerArray α s (.array items) = .ok vs) ∨
    (∃ v ∈ items, v.toInt? = none ∧ ∃ fault, integerArray α s (.array items) = .error fault ∧
      fault.kind = .schemaMismatch) ∨
    ∃ v ∈ items, ∃ n, v.toInt? = some n ∧
      ¬ (FixedInteger.lower α ≤ n ∧ n ≤ FixedInteger.upper α) ∧
      ∃ fault, integerArray α s (.array items) = .error fault ∧ fault.kind = .range := by
  unfold integerArray
  rcases integers_outcome s items with ⟨ns, hns, hints⟩ | ⟨v, hv, hint, fault, hints, hkind⟩
  · rw [hints]
    rcases mapM_outcome (narrowAs s.kind.name α) ns with ⟨vs, hvs, hmap⟩ |
      ⟨n, hn, fault, hfault, hmap⟩
    · refine .inl ⟨vs, ?_, hmap⟩
      have htoInt : ns = vs.map FixedInteger.toInt := by
        rw [← List.forall₂_eq_eq_eq, List.forall₂_map_right_iff]
        refine hvs.imp fun n x h => ?_
        rcases FixedInteger.narrowAs_outcome α s.kind.name n with ⟨-, y, hy, hyn⟩ |
          ⟨-, _, hy, -⟩ <;> rw [h] at hy
        · obtain rfl := Except.ok.inj hy
          exact hyn.symm
        · contradiction
      rw [hns, htoInt, List.map_map]
      rfl
    · have hmem : some n ∈ items.map Native.toInt? := hns ▸ List.mem_map_of_mem hn
      obtain ⟨v, hv, hint⟩ := List.mem_map.mp hmem
      rcases FixedInteger.narrowAs_outcome α s.kind.name n with ⟨-, y, hy, -⟩ |
        ⟨hrange, e, hy, hkind⟩ <;> rw [hfault] at hy
      · contradiction
      · obtain rfl := Except.error.inj hy
        exact .inr (.inr ⟨v, hv, n, hint, hrange, fault, hmap, hkind⟩)
  · rw [hints]
    exact .inr (.inl ⟨v, hv, hint, fault, rfl, hkind⟩)

/-! ### Doubles -/

theorem ofNative_float {v : Native} {x : Float64Bits} (hx : v.toDouble? = some x) :
    ofNative (some .float) v = ofDouble x := by
  cases v with
  | integer _ | real _ =>
    obtain rfl := Option.some.inj hx
    rfl
  | _ => contradiction

theorem ofNative_double {v : Native} {x : Float64Bits} (hx : v.toDouble? = some x) :
    ofNative (some .double) v = .ok (double x) := by
  cases v with
  | integer _ | real _ =>
    obtain rfl := Option.some.inj hx
    rfl
  | _ => contradiction

/-- A double is too great for a float. -/
def TooGreat (x : Float64Bits) : Prop :=
  x.isFinite ∧ Float32Bits.greatest.widen.magnitude < x.magnitude

theorem ofDouble_outcome (x : Float64Bits) :
    ofDouble x = .ok (float x.narrow) ∨
    TooGreat x ∧ ∃ fault, ofDouble x = .error fault ∧ fault.kind = .range := by
  unfold ofDouble TooGreat
  by_cases h : x.isFinite ∧ Float32Bits.greatest.widen.magnitude < x.magnitude
  · exact .inr ⟨h, _, if_pos h, rfl⟩
  · exact .inl (if_neg h)

/-! ### Lists -/

theorem ofResults_outcome {kind : TagKind} (hend : kind ≠ .endMark)
    {f : Native → Except Fault Tag} {items : List Native}
    (hkind : ∀ v ∈ items, ∀ t, f v = .ok t → t.kind = kind) (earlier : Array Tag) :
    (∃ ts, List.Forall₂ (fun v t => f v = .ok t) items ts ∧
      TagList.ofResults ⟨kind, earlier⟩ (items.map f) = .ok ⟨kind, earlier ++ ts.toArray⟩) ∨
    ∃ v ∈ items, ∃ fault, f v = .error fault ∧
      TagList.ofResults ⟨kind, earlier⟩ (items.map f) = .error fault := by
  induction items generalizing earlier with
  | nil => exact .inl ⟨[], .nil, by simp [TagList.ofResults]⟩
  | cons v items ih =>
    rw [List.forall_mem_cons] at hkind
    rw [List.map_cons]
    rcases hv : f v with fault | t
    · exact .inr ⟨v, List.mem_cons_self, fault, hv, rfl⟩
    obtain rfl := hkind.1 t hv
    have hstep : TagList.ofResults ⟨t.kind, earlier⟩ (.ok t :: items.map f) =
        TagList.ofResults ⟨t.kind, earlier.push t⟩ (items.map f) := by
      show (TagList.push t ⟨t.kind, earlier⟩ >>= fun l => l.ofResults (items.map f)) = _
      rw [TagList.push_eq_ok_iff.mpr ⟨hend, .inr rfl, rfl⟩]
      rfl
    rw [hstep]
    rcases ih hkind.2 (earlier.push t) with ⟨ts, hts, hl⟩ | ⟨other, hmem, fault, hother, hl⟩
    · exact .inl ⟨t :: ts, .cons hv hts, by rw [hl]; simp⟩
    · exact .inr ⟨other, List.mem_cons_of_mem _ hmem, fault, hother, hl⟩

theorem kind_of_map {α : Type} {make : α → Tag} {r : Except Fault α} {t : Tag}
    (h : r.map make = .ok t) {kind : TagKind} (hmake : ∀ x, (make x).kind = kind) :
    t.kind = kind := by
  rcases r with fault | x
  · contradiction
  · exact Except.ok.inj h ▸ hmake x

/-- What a schema is for becomes tags of its kind. -/
theorem kind_of_ofNative {s : Schema} {v : Native} {t : Tag} (h : ofNative (some s) v = .ok t) :
    t.kind = s.kind := by
  by_cases htakes : Takes (some s) v
  swap
  · rw [ofNative_misfit htakes] at h
    contradiction
  rcases hb : s.bounds? with _ | b
  swap
  · obtain ⟨n, hn⟩ := (takes_integer_iff hb).mp htakes
    rw [ofNative_integer hb hn] at h
    rcases integer_outcome hb n with ⟨-, u, hu, hkind, -⟩ | ⟨-, fault, hu, -⟩ <;> rw [h] at hu
    · exact Except.ok.inj hu ▸ hkind
    · contradiction
  cases s with
  | byte | short | int | long => contradiction
  | float =>
    obtain ⟨x, hx⟩ := Native.exists_toDouble htakes
    rw [ofNative_float hx] at h
    rcases ofDouble_outcome x with hfloat | ⟨-, fault, hfloat, -⟩ <;> rw [h] at hfloat
    · exact Except.ok.inj hfloat ▸ rfl
    · contradiction
  | double =>
    obtain ⟨x, hx⟩ := Native.exists_toDouble htakes
    rw [ofNative_double hx] at h
    exact Except.ok.inj h ▸ rfl
  | string =>
    cases v with
    | string text => exact Except.ok.inj h ▸ rfl
    | _ => contradiction
  | list element =>
    cases v with
    | array items => exact kind_of_map (ofNative_list element items ▸ h) fun _ => rfl
    | _ => contradiction
  | compound schemas =>
    cases v with
    | object fields => exact kind_of_map (ofNative_compound schemas fields ▸ h) fun _ => rfl
    | _ => contradiction
  | byteArray =>
    cases v with
    | array items => exact kind_of_map (ofNative_byteArray items ▸ h) fun _ => rfl
    | _ => contradiction
  | intArray =>
    cases v with
    | array items => exact kind_of_map (ofNative_intArray items ▸ h) fun _ => rfl
    | _ => contradiction
  | longArray =>
    cases v with
    | array items => exact kind_of_map (ofNative_longArray items ▸ h) fun _ => rfl
    | _ => contradiction

/-- A list is made of what its elements become. -/
theorem ofNative_list_outcome (element : Schema) (items : List Native) :
    (∃ ts, List.Forall₂ (fun v t => ofNative (some element) v = .ok t) items ts ∧
      ofNative (some (.list element)) (.array items) = .ok (list element.kind ts)) ∨
    ∃ v ∈ items, ∃ fault, ofNative (some element) v = .error fault ∧
      ofNative (some (.list element)) (.array items) = .error fault := by
  rw [ofNative_list]
  rcases ofResults_outcome element.kind_ne_endMark (fun v _ t => kind_of_ofNative) #[] with
    ⟨ts, hts, hl⟩ | ⟨v, hv, fault, hfault, hl⟩
  · exact .inl ⟨ts, hts, by rw [TagList.ofKind, hl]; simp [Except.map, TagList.toTag]⟩
  · exact .inr ⟨v, hv, fault, hfault, by rw [TagList.ofKind, hl]; rfl⟩

/-! ### Numbers without a schema -/

/-- A number without a schema is converted under that of its width. -/
theorem ofNative_number {v : Native} {w : Width} (h : Width.of? v = some w) :
    ofNative none v = ofNative (some w.schema) v := by
  cases v with
  | integer n =>
    show ofScalar ((Width.of? (.integer n)).getD .double).schema (.integer n) = _
    rw [h]
    rfl
  | real x =>
    obtain rfl := Option.some.inj h
    rfl
  | _ => contradiction

end Tag

namespace Width

theorem of?_eq_none_iff {v : Native} : of? v = none ↔ v.type ≠ .number := by
  cases v <;> simp [of?, Native.type]

theorem type_of_of? {v : Native} {w : Width} (h : of? v = some w) : v.type = .number := by
  by_contra hnumber
  rw [of?_eq_none_iff.mpr hnumber] at h
  contradiction

theorem of?_integer (n : Int) :
    (of? (.integer n) = some int ∧ -2 ^ 31 ≤ n ∧ n ≤ 2 ^ 31 - 1) ∨
      of? (.integer n) = some long := by
  by_cases h : FixedInteger.lower Int32 ≤ n ∧ n ≤ FixedInteger.upper Int32
  · exact .inl ⟨congrArg some (if_pos h), h⟩
  · exact .inr (congrArg some (if_neg h))

theorem eq_real_of_double {v : Native} (h : of? v = some double) : ∃ x, v = .real x := by
  cases v with
  | real x => exact ⟨x, rfl⟩
  | integer n => rcases of?_integer n with ⟨hint, -⟩ | hlong <;> simp_all
  | _ => contradiction

/-- Numbers that are no wider than a long are integers. -/
theorem eq_integer_of_rank {v : Native} {u w : Width} (h : of? v = some u) (hrank : u.rank ≤ w.rank)
    (hw : w ≠ double) : ∃ n, v = .integer n := by
  cases v with
  | integer n => exact ⟨n, rfl⟩
  | real x =>
    obtain rfl := Option.some.inj h
    cases w <;> contradiction
  | _ => contradiction

theorem rank_widest (a b : Width) : a.rank ≤ (a.widest b).rank ∧ b.rank ≤ (a.widest b).rank := by
  cases a <;> cases b <;> decide

theorem widest_eq (a b : Width) : a.widest b = a ∨ a.widest b = b := by
  cases a <;> cases b <;> decide

/-- The width of an array is the greatest of its numbers. -/
theorem ofArray?_eq_some {items : List Native} {w : Width} (h : ofArray? items = some w) :
    (∃ v ∈ items, of? v = some w) ∧ ∀ v ∈ items, ∃ u, of? v = some u ∧ u.rank ≤ w.rank := by
  fun_induction ofArray? items generalizing w with
  | case1 => contradiction
  | case2 v => simp [h]
  | case3 v rest hrest a b hb ha ih =>
    obtain rfl := Option.some.inj h
    obtain ⟨⟨other, hother, hwidth⟩, hrank⟩ := ih hb
    refine ⟨?_, fun u hu => ?_⟩
    · rcases widest_eq a b with h | h <;> rw [h]
      · exact ⟨v, List.mem_cons_self, ha⟩
      · exact ⟨other, List.mem_cons_of_mem _ hother, hwidth⟩
    · rcases List.mem_cons.mp hu with rfl | hu
      · exact ⟨a, ha, (rank_widest a b).1⟩
      · obtain ⟨w, hw, hle⟩ := hrank u hu
        exact ⟨w, hw, hle.trans (rank_widest a b).2⟩
  | case4 => contradiction

theorem ofArray?_eq_none {items : List Native} (h : ofArray? items = none) :
    items = [] ∨ ∃ v ∈ items, v.type ≠ .number := by
  fun_induction ofArray? items with
  | case1 => exact .inl rfl
  | case2 v => exact .inr ⟨v, List.mem_cons_self, of?_eq_none_iff.mp h⟩
  | case3 => contradiction
  | case4 v rest hrest hnone ih =>
    right
    rcases hv : of? v with _ | a
    · exact ⟨v, List.mem_cons_self, of?_eq_none_iff.mp hv⟩
    rcases hrest : ofArray? rest with _ | b
    · rcases ih hrest with rfl | ⟨u, hu, htype⟩
      · contradiction
      · exact ⟨u, List.mem_cons_of_mem _ hu, htype⟩
    · exact absurd hrest (hnone a b hv)

end Width

namespace Tag

/-- An integer that a width is great enough for is converted under it if it fits a long. -/
theorem ofNative_width {n : Int} {u w : Width} (hu : Width.of? (.integer n) = some u)
    (hrank : u.rank ≤ w.rank) (hw : w ≠ .double) :
    ((-2 ^ 63 ≤ n ∧ n ≤ 2 ^ 63 - 1) ∧
      ∃ t, ofNative (some w.schema) (.integer n) = .ok t ∧ t.toInt? = some n) ∨
    ¬ (-2 ^ 63 ≤ n ∧ n ≤ 2 ^ 63 - 1) ∧
      ∃ fault, ofNative (some w.schema) (.integer n) = .error fault ∧ fault.kind = .range := by
  cases w with
  | int =>
    rcases Width.of?_integer n with ⟨-, hn⟩ | hlong
    · rcases integer_outcome (s := .int) rfl n with ⟨-, t, ht, -, htn⟩ | ⟨hrange, -⟩
      · exact .inl ⟨by omega, t, ht, htn⟩
      · exact absurd hn hrange
    · obtain rfl := Option.some.inj (hu.symm.trans hlong)
      contradiction
  | long =>
    rcases integer_outcome (s := .long) rfl n with ⟨hrange, t, ht, -, htn⟩ | h
    · exact .inl ⟨hrange, t, ht, htn⟩
    · exact .inr h
  | double => contradiction

theorem ofNative_free_integer (n : Int) :
    ((-2 ^ 63 ≤ n ∧ n ≤ 2 ^ 63 - 1) ∧
      ∃ t, ofNative none (.integer n) = .ok t ∧ t.toInt? = some n) ∨
    ¬ (-2 ^ 63 ≤ n ∧ n ≤ 2 ^ 63 - 1) ∧
      ∃ fault, ofNative none (.integer n) = .error fault ∧ fault.kind = .range := by
  rcases Width.of?_integer n with ⟨h, -⟩ | h <;> rw [ofNative_number h] <;>
    exact ofNative_width h (Nat.le_refl _) (by decide)

/-! ### Arrays without a schema -/

theorem ofNative_numbers {items : List Native} {w : Width} (h : Width.ofArray? items = some w) :
    ofNative none (.array items) = ofNative (some (.list w.schema)) (.array items) := by
  simp only [ofNative, h]

theorem ofNative_free {items : List Native} (h : Width.ofArray? items = none) :
    ofNative none (.array items) = items.mapM (ofNative none) >>= fun ts =>
      (TagList.ofTags ts).map TagList.toTag := by
  have hresults : (ofNatives none items).mapM id = items.mapM (ofNative none) := by
    rw [ofNatives_eq, List.mapM_map]
    rfl
  rw [← hresults]
  simp only [ofNative, h]
  rfl

theorem pushAll_outcome (ts : List Tag) (l : TagList) :
    (∃ kind, l.pushAll ts = .ok ⟨kind, l.items ++ ts.toArray⟩) ∨
    ∃ fault, l.pushAll ts = .error fault ∧ fault.kind = .structural := by
  induction ts generalizing l with
  | nil => exact .inl ⟨l.kind, by simp [TagList.pushAll, pure, Except.pure]⟩
  | cons t ts ih =>
    change (∃ kind, (l.push t >>= fun l => l.pushAll ts) = _) ∨
      ∃ fault, (l.push t >>= fun l => l.pushAll ts) = _ ∧ _
    rcases hpush : l.push t with fault | pushed
    · refine .inr ⟨fault, rfl, ?_⟩
      unfold TagList.push at hpush
      split_ifs at hpush <;> exact Except.error.inj hpush ▸ rfl
    · obtain ⟨-, -, rfl⟩ := TagList.push_eq_ok_iff.mp hpush
      rcases ih ⟨t.kind, l.items.push t⟩ with ⟨kind, hl⟩ | h
      · exact .inl ⟨kind, hl.trans (by simp)⟩
      · exact .inr h

/-- Tags make a list, or are of several kinds. -/
theorem ofTags_outcome {ts : List Tag} (hend : ∀ t ∈ ts, t.kind ≠ .endMark) :
    (∃ kind, (TagList.ofTags ts).map TagList.toTag = .ok (list kind ts)) ∨
    (∃ t ∈ ts, ∃ u ∈ ts, t.kind ≠ u.kind) ∧
      ∃ fault, (TagList.ofTags ts).map TagList.toTag = .error fault ∧ fault.kind = .structural := by
  by_cases hkinds : ∃ t ∈ ts, ∃ u ∈ ts, t.kind ≠ u.kind
  · rcases pushAll_outcome ts .empty with ⟨kind, hl⟩ | ⟨fault, hl, hkind⟩
    · exact .inl ⟨kind, by rw [TagList.ofTags, hl]; simp [Except.map, TagList.toTag, TagList.empty]⟩
    · exact .inr ⟨hkinds, fault, by rw [TagList.ofTags, hl]; rfl, hkind⟩
  · push Not at hkinds
    left
    rcases ts with _ | ⟨t, ts⟩
    · exact ⟨_, rfl⟩
    · have hl := ofTags_eq fun u hu => ⟨hkinds u hu t List.mem_cons_self, hend u hu⟩
      exact ⟨_, by rw [hl]; rfl⟩

/-- What a value becomes that is no number. -/
theorem kind_free {v : Native} {t : Tag} (h : ofNative none v = .ok t) :
    v.type = .boolean ∧ t.kind = .byte ∨ v.type = .string ∧ t.kind = .string ∨
    v.type = .array ∧ t.kind = .list ∨ v.type = .object ∧ t.kind = .compound ∨
    v.type = .number ∧ t.kind ≠ .endMark := by
  cases v with
  | null => contradiction
  | bool b => exact .inl ⟨rfl, Except.ok.inj h ▸ rfl⟩
  | string s => exact .inr (.inl ⟨rfl, Except.ok.inj h ▸ rfl⟩)
  | array items =>
    rcases hw : Width.ofArray? items with _ | w
    · rw [ofNative_free hw] at h
      rcases hts : items.mapM (ofNative none) with fault | ts
      · rw [hts] at h
        contradiction
      · rw [hts] at h
        exact .inr (.inr (.inl ⟨rfl, kind_of_map h fun _ => rfl⟩))
    · rw [ofNative_numbers hw] at h
      exact .inr (.inr (.inl ⟨rfl, kind_of_ofNative h⟩))
  | object fields =>
    rw [ofNative_free_object] at h
    exact .inr (.inr (.inr (.inl ⟨rfl, kind_of_ofNative h⟩)))
  | integer _ | real _ =>
    rw [ofNative_number rfl] at h
    exact .inr (.inr (.inr (.inr ⟨rfl, kind_of_ofNative h ▸ Schema.kind_ne_endMark _⟩)))

/-- What is of one type, numbers aside, becomes of one kind. -/
theorem kind_eq_of_type {v v' : Native} {t t' : Tag} (h : ofNative none v = .ok t)
    (h' : ofNative none v' = .ok t') (htype : v.type = v'.type) (hnumber : v.type ≠ .number) :
    t.kind = t'.kind := by
  rcases kind_free h with hv | hv | hv | hv | hv <;>
    rcases kind_free h' with hv' | hv' | hv' | hv' | hv' <;> simp_all

theorem kind_ne_endMark {o : Option Schema} {v : Native} {t : Tag} (h : ofNative o v = .ok t) :
    t.kind ≠ .endMark := by
  cases o with
  | none => rcases kind_free h with ⟨-, h⟩ | ⟨-, h⟩ | ⟨-, h⟩ | ⟨-, h⟩ | ⟨-, h⟩ <;> simp [h]
  | some s => exact kind_of_ofNative h ▸ s.kind_ne_endMark

/-- A free array that is not one of numbers is a list if its elements are of one type. -/
theorem ofNative_free_outcome {items : List Native} (h : Width.ofArray? items = none) :
    (∃ ts kind, List.Forall₂ (fun v t => ofNative none v = .ok t) items ts ∧
      ofNative none (.array items) = .ok (list kind ts)) ∨
    (∃ v ∈ items, ∃ fault, ofNative none v = .error fault ∧
      ofNative none (.array items) = .error fault) ∨
    (∃ v ∈ items, ∃ u ∈ items, v.type ≠ u.type) ∧
      ∃ fault, ofNative none (.array items) = .error fault ∧ fault.kind = .structural := by
  rw [ofNative_free h]
  rcases mapM_outcome (ofNative none) items with ⟨ts, hts, hmap⟩ | ⟨v, hv, fault, hfault, hmap⟩
  swap
  · exact .inr (.inl ⟨v, hv, fault, hfault, by rw [hmap]; rfl⟩)
  rw [hmap]
  have hend : ∀ t ∈ ts, t.kind ≠ .endMark := fun t ht =>
    have ⟨_, _, hv⟩ := exists_left_of_forall₂ hts ht
    kind_ne_endMark hv
  rcases ofTags_outcome hend with ⟨kind, hl⟩ | ⟨⟨t, ht, u, hu, hkind⟩, fault, hl, hfault⟩
  · exact .inl ⟨ts, kind, hts, hl⟩
  · refine .inr (.inr ⟨?_, fault, hl, hfault⟩)
    obtain ⟨v, hv, hvt⟩ := exists_left_of_forall₂ hts ht
    obtain ⟨w, hw, hwu⟩ := exists_left_of_forall₂ hts hu
    by_cases htype : v.type = w.type
    swap
    · exact ⟨v, hv, w, hw, htype⟩
    -- numbers of several kinds are not alone in the array
    have hnumber : v.type = .number := by
      by_contra hnumber
      exact hkind (kind_eq_of_type hvt hwu htype hnumber)
    rcases Width.ofArray?_eq_none h with rfl | ⟨x, hx, hother⟩
    · contradiction
    · exact ⟨v, hv, x, hx, hnumber ▸ Ne.symm hother⟩

/-! ### Objects -/

/-- The fields of an object are added one after the other until one fails or has no name. -/
theorem ofFields_outcome {schemas : List (String × Schema)} {built : Compound}
    {done : List (String × Tag)} (hbuilt : built.Holds done) {fields : List (String × Native)}
    (hnames : (done.map Prod.fst ++ fields.map Prod.fst).Nodup) :
    (∃ es, List.Forall₂ (fun f e => f.1 = e.1 ∧ ofNative (schemas.lookup f.1) f.2 = .ok e.2)
        fields es ∧
      (ofFields schemas built fields).map Compound.toTag = .ok (compound (done ++ es))) ∨
    (∃ f ∈ fields, ∃ fault, ofNative (schemas.lookup f.1) f.2 = .error fault ∧
      (ofFields schemas built fields).map Compound.toTag = .error fault) ∨
    "" ∈ fields.map Prod.fst ∧
      ∃ fault, (ofFields schemas built fields).map Compound.toTag = .error fault ∧
        fault.kind = .structural := by
  induction fields generalizing built done with
  | nil =>
    refine .inl ⟨[], .nil, ?_⟩
    rw [List.append_nil, ← hbuilt.1]
    rfl
  | cons f fields ih =>
    obtain ⟨name, v⟩ := f
    rw [ofFields]
    rcases hv : ofNative (schemas.lookup name) v with fault | t
    · exact .inr (.inl ⟨(name, v), List.mem_cons_self, fault, hv, by simp [Except.map]⟩)
    by_cases hname : name = ""
    · subst hname
      exact .inr (.inr ⟨List.mem_cons_self, _, rfl, rfl⟩)
    have hnew : ¬ (name.isEmpty ∨ (done.lookup name).isSome) := by
      rw [lookup_eq_none hnames]
      simpa using hname
    obtain ⟨built', hinsert, hbuilt'⟩ := hbuilt.insert hnew (kind_ne_endMark hv)
    simp only [hinsert]
    rcases ih hbuilt' (by simpa using hnames) with ⟨es, hes, hfields⟩ |
      ⟨other, hother, fault, hfault, hfields⟩ | ⟨hempty, hfields⟩
    · refine .inl ⟨(name, t) :: es, .cons ⟨rfl, hv⟩ hes, ?_⟩
      rw [hfields, List.append_assoc]
      rfl
    · exact .inr (.inl ⟨other, List.mem_cons_of_mem _ hother, fault, hfault, hfields⟩)
    · exact .inr (.inr ⟨List.mem_cons_of_mem _ hempty, hfields⟩)

end Tag

end Nbt

end MinecraftWire
