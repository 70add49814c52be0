import MinecraftWire.Proofs.Nbt.Conversion.Sound

/-! Conversion without a schema. Whether an array is converted, and into a list of which kind, depends
on its elements but not on their order: it takes one width for all of its numbers, or one kind for
what its elements become. The tag keeps the value, but for the integers among fractions and for
truth values, which are numbers from then on. -/

namespace MinecraftWire

namespace Native

/-! ### Values -/

/-- What every JSON value is: its numbers are finite, and the keys of an object ascend. -/
def Proper : Native → Prop
  | real x => x.isFinite
  | object fields => (fields.map Prod.fst).Pairwise (· < ·)
  | _ => True

/-- An array has integers or fractions, but not both. -/
def NumbersAlike : Native → Prop
  | array items => ∀ n x, .integer n ∈ items → .real x ∉ items
  | _ => True

theorem All.here {P : Native → Prop} {v : Native} (h : v.All P) : P v := by
  cases h
  assumption

theorem All.child {P : Native → Prop} {v u : Native} (h : v.All P) (hu : u ∈ v.children) :
    u.All P := by
  cases h with
  | node _ h => exact h u hu

mutual

/-- The value with 1 for true and 0 for false. -/
def withoutBooleans : Native → Native
  | bool b => integer (if b then 1 else 0)
  | array items => array (itemsWithoutBooleans items)
  | object fields => object (fieldsWithoutBooleans fields)
  | v => v
termination_by structural v => v

def itemsWithoutBooleans : List Native → List Native
  | [] => []
  | v :: rest => v.withoutBooleans :: itemsWithoutBooleans rest
termination_by structural vs => vs

def fieldsWithoutBooleans : List (String × Native) → List (String × Native)
  | [] => []
  | (name, v) :: rest => (name, v.withoutBooleans) :: fieldsWithoutBooleans rest
termination_by structural fields => fields

end

theorem itemsWithoutBooleans_eq_map (items : List Native) :
    itemsWithoutBooleans items = items.map withoutBooleans := by
  induction items with
  | nil => rfl
  | cons v items ih => rw [itemsWithoutBooleans, ih, List.map_cons]

theorem fieldsWithoutBooleans_eq_map (fields : List (String × Native)) :
    fieldsWithoutBooleans fields = fields.map fun f => (f.1, f.2.withoutBooleans) := by
  induction fields with
  | nil => rfl
  | cons f fields ih => rw [fieldsWithoutBooleans, ih, List.map_cons]

end Native

theorem eq_map_of_forall₂ {α β ε : Type} [Inhabited β] {f : α → Except ε β} {xs : List α}
    {ys : List β} (h : List.Forall₂ (fun x y => f x = .ok y) xs ys) :
    ys = xs.map fun x => (f x).toOption.getD default := by
  symm
  rw [← List.forall₂_eq_eq_eq, List.forall₂_map_left_iff]
  refine h.imp fun x y hxy => ?_
  rw [hxy]
  rfl

/-- Values are converted one after another if each is converted by itself. -/
theorem mapM_eq_ok_iff {α β ε : Type} [Inhabited β] {f : α → Except ε β} {xs : List α}
    {ys : List β} : xs.mapM f = .ok ys ↔
      (∀ x ∈ xs, ∃ y, f x = .ok y) ∧ ys = xs.map fun x => (f x).toOption.getD default := by
  rcases mapM_outcome f xs with ⟨zs, hzs, hall⟩ | ⟨x, hx, e, he, hall⟩ <;> rw [hall]
  · have hmap := eq_map_of_forall₂ hzs
    refine ⟨fun h => ?_, fun ⟨_, h⟩ => by rw [h, hmap]⟩
    obtain rfl := Except.ok.inj h
    exact ⟨fun x hx => have ⟨y, _, hy⟩ := exists_right_of_forall₂ hzs hx; ⟨y, hy⟩, hmap⟩
  · refine iff_of_false nofun fun ⟨h, _⟩ => ?_
    obtain ⟨y, hy⟩ := h x hx
    rw [he] at hy
    contradiction

namespace Nbt

/-! ### Widths -/

theorem Width.eq_of_rank_eq {u w : Width} (h : u.rank = w.rank) : u = w := by
  cases u <;> cases w <;> first | rfl | contradiction

theorem Width.ofArray?_eq_some_iff {items : List Native} {w : Width} : ofArray? items = some w ↔
    (∃ v ∈ items, of? v = some w) ∧ ∀ v ∈ items, ∃ u, of? v = some u ∧ u.rank ≤ w.rank := by
  refine ⟨ofArray?_eq_some, fun ⟨⟨v, hv, hwidth⟩, hrank⟩ => ?_⟩
  rcases hitems : ofArray? items with _ | w'
  · rcases ofArray?_eq_none hitems with rfl | ⟨u, hu, htype⟩
    · contradiction
    · obtain ⟨_, hnumber, -⟩ := hrank u hu
      exact absurd (type_of_of? hnumber) htype
  · obtain ⟨⟨v', hv', hwidth'⟩, hrank'⟩ := ofArray?_eq_some hitems
    obtain ⟨u, hu, hle⟩ := hrank v' hv'
    obtain rfl := Option.some.inj (hu.symm.trans hwidth')
    obtain ⟨u', hu', hle'⟩ := hrank' v hv
    obtain rfl := Option.some.inj (hu'.symm.trans hwidth)
    rw [eq_of_rank_eq (Nat.le_antisymm hle hle')]

/-- The common width of numbers does not depend on their order. -/
theorem Width.ofArray?_perm {items items' : List Native} (h : items.Perm items') :
    ofArray? items = ofArray? items' := by
  refine Option.ext fun w => ?_
  rw [ofArray?_eq_some_iff, ofArray?_eq_some_iff]
  simp only [h.mem_iff]

/-- The narrowest kind in which there is room for all of the numbers. -/
structure Widest (items : List Native) (kind : TagKind) : Prop where
  numeric : kind = .int ∨ kind = .long ∨ kind = .double
  double : kind = .double ↔ ∃ x, .real x ∈ items
  int : kind = .int ↔ ∀ v ∈ items, ∃ n, v = .integer n ∧ -2 ^ 31 ≤ n ∧ n ≤ 2 ^ 31 - 1

theorem Width.widest_schema {items : List Native} {w : Width} (h : ofArray? items = some w) :
    Widest items w.schema.kind := by
  obtain ⟨⟨v, hv, hwidth⟩, hrank⟩ := ofArray?_eq_some h
  have hnumbers : ∀ v ∈ items, v.type = .number := fun v hv =>
    have ⟨_, hu, _⟩ := hrank v hv
    type_of_of? hu
  have hdouble : w = double ↔ ∃ x, .real x ∈ items := by
    rw [← fractional_iff h]
    exact and_iff_right hnumbers
  have hint : w = int ↔ ∀ v ∈ items, ∃ n, v = .integer n ∧ -2 ^ 31 ≤ n ∧ n ≤ 2 ^ 31 - 1 := by
    refine ⟨?_, fun hall => ?_⟩
    · rintro rfl u hu
      obtain ⟨u', hu', hle⟩ := hrank u hu
      obtain ⟨n, rfl⟩ := eq_integer_of_rank hu' hle (by decide)
      rcases of?_integer n with ⟨-, hn⟩ | hlong
      · exact ⟨n, rfl, hn⟩
      · obtain rfl := Option.some.inj (hu'.symm.trans hlong)
        contradiction
    · obtain ⟨n, rfl, hn⟩ := hall v hv
      exact (Option.some.inj (hwidth.symm.trans (congrArg some (if_pos hn))))
  refine ⟨?_, ?_, ?_⟩
  · cases w <;> simp [schema, Schema.kind]
  · rw [← hdouble]
    cases w <;> simp [schema, Schema.kind]
  · rw [← hint]
    cases w <;> simp [schema, Schema.kind]

namespace Tag

/-! ### Arrays -/

theorem kind_of_pushAll {ts : List Tag} {l l' : TagList} (hl : l.kind ≠ .endMark)
    (h : l.pushAll ts = .ok l') : ∀ t ∈ ts, t.kind = l.kind := by
  induction ts generalizing l with
  | nil => exact List.forall_mem_nil _
  | cons t ts ih =>
    change (l.push t >>= fun l => l.pushAll ts) = .ok l' at h
    rcases hpush : l.push t with fault | pushed <;> rw [hpush] at h
    · contradiction
    obtain ⟨hend, hkind, rfl⟩ := TagList.push_eq_ok_iff.mp hpush
    have ht : t.kind = l.kind := (hkind.resolve_left hl).symm
    exact List.forall_mem_cons.mpr ⟨ht, ht ▸ ih (l := ⟨t.kind, l.items.push t⟩) hend h⟩

theorem exists_kind_of_ofTags {ts : List Tag} {l : TagList} (h : TagList.ofTags ts = .ok l) :
    ∃ kind, ∀ t ∈ ts, t.kind = kind := by
  rcases ts with _ | ⟨t, ts⟩
  · exact ⟨.endMark, List.forall_mem_nil _⟩
  change (TagList.empty.push t >>= fun l => l.pushAll ts) = .ok l at h
  rcases hpush : TagList.empty.push t with fault | pushed <;> rw [hpush] at h
  · contradiction
  obtain ⟨hend, -, rfl⟩ := TagList.push_eq_ok_iff.mp hpush
  exact ⟨t.kind, List.forall_mem_cons.mpr ⟨rfl, kind_of_pushAll hend h⟩⟩

/-- Tags make a list if they are of one kind. -/
theorem ofTags_eq_ok_iff {ts : List Tag} {t : Tag} (hend : ∀ u ∈ ts, u.kind ≠ .endMark) :
    (TagList.ofTags ts).map TagList.toTag = .ok t ↔
      ∃ kind, (∀ u ∈ ts, u.kind = kind) ∧ t = list (formKind kind ts) ts := by
  refine ⟨fun h => ?_, fun ⟨kind, hkind, h⟩ => ?_⟩
  · rcases hl : TagList.ofTags ts with fault | l
    · rw [hl] at h
      contradiction
    obtain ⟨kind, hkind⟩ := exists_kind_of_ofTags hl
    rw [ofTags_eq fun u hu => ⟨hkind u hu, hend u hu⟩] at h
    exact ⟨kind, hkind, (Except.ok.inj h).symm⟩
  · rw [ofTags_eq fun u hu => ⟨hkind u hu, hend u hu⟩, h]
    rfl

/-- The schema under which the elements of an array are converted: that of the width of the numbers,
or none. -/
def common? (items : List Native) : Option Schema :=
  (Width.ofArray? items).map Width.schema

theorem common?_perm {items items' : List Native} (h : items.Perm items') :
    common? items = common? items' :=
  congrArg (Option.map Width.schema) (Width.ofArray?_perm h)

/-- What a value becomes, where it becomes anything. -/
def become (o : Option Schema) (v : Native) : Tag :=
  (ofNative o v).toOption.getD default

theorem ofNative_become {o : Option Schema} {v : Native} (h : ∃ t, ofNative o v = .ok t) :
    ofNative o v = .ok (become o v) := by
  obtain ⟨t, ht⟩ := h
  rw [become, ht]
  rfl

/-- An array is converted if its elements are, all of them to one kind. -/
theorem ofNative_array_iff {items : List Native} {t : Tag} : ofNative none (.array items) = .ok t ↔
    (∀ v ∈ items, ∃ u, ofNative (common? items) v = .ok u) ∧
      ∃ kind, (∀ v ∈ items, (become (common? items) v).kind = kind) ∧
        t = list (if items = [] then .endMark else kind) (items.map (become (common? items))) := by
  have hform (kind : TagKind) (f : Native → Tag) :
      formKind kind (items.map f) = if items = [] then .endMark else kind := by
    cases items <;> rfl
  rcases hwidth : Width.ofArray? items with _ | w
  · have hcommon : common? items = none := congrArg (Option.map Width.schema) hwidth
    rw [hcommon, ofNative_free hwidth]
    rcases hall : items.mapM (ofNative none) with fault | ts
    · refine iff_of_false nofun fun ⟨h, _⟩ => ?_
      rw [mapM_eq_ok_iff.mpr ⟨h, rfl⟩] at hall
      contradiction
    obtain ⟨hitems, rfl⟩ := mapM_eq_ok_iff.mp hall
    show (TagList.ofTags (items.map (become none))).map TagList.toTag = .ok t ↔ _
    have hend : ∀ u ∈ items.map (become none), u.kind ≠ .endMark := by
      rw [List.forall_mem_map]
      exact fun v hv => kind_ne_endMark (ofNative_become (hitems v hv))
    rw [ofTags_eq_ok_iff hend, and_iff_right hitems]
    simp only [List.forall_mem_map, hform]
  · have hcommon : common? items = some w.schema := congrArg (Option.map Width.schema) hwidth
    have hne : items ≠ [] := by
      rintro rfl
      contradiction
    simp only [hcommon, ofNative_numbers hwidth, if_neg hne]
    rcases ofNative_list_outcome w.schema items with ⟨ts, hts, ht⟩ | ⟨v, hv, fault, hfault, ht⟩ <;>
      rw [ht]
    · obtain rfl := eq_map_of_forall₂ hts
      have hitems : ∀ v ∈ items, ∃ u, ofNative (some w.schema) v = .ok u := fun v hv =>
        have ⟨u, _, hu⟩ := exists_right_of_forall₂ hts hv
        ⟨u, hu⟩
      have hkinds : ∀ v ∈ items, (become (some w.schema) v).kind = w.schema.kind := fun v hv =>
        kind_of_ofNative (ofNative_become (hitems v hv))
      rw [and_iff_right hitems]
      refine ⟨fun h => ⟨w.schema.kind, hkinds, (Except.ok.inj h).symm⟩, fun ⟨kind, hkind, h⟩ => ?_⟩
      obtain ⟨v, hv⟩ := List.exists_mem_of_ne_nil items hne
      rw [h, ← hkind v hv, hkinds v hv]
      rfl
    · refine iff_of_false nofun fun ⟨h, _⟩ => ?_
      obtain ⟨u, hu⟩ := h v hv
      rw [hfault] at hu
      contradiction

/-- Elements in another order become the same tags in that order, in a list of the same kind. -/
theorem ofNative_array_perm {items items' : List Native} (h : items.Perm items') {t : Tag}
    (ht : ofNative none (.array items) = .ok t) : ∃ kind,
      t = list kind (items.map (become (common? items))) ∧
      ofNative none (.array items') = .ok (list kind (items'.map (become (common? items)))) ∧
      (items ≠ [] → (∀ v ∈ items, v.type = .number) → Widest items kind) := by
  obtain ⟨hitems, kind, hkind, rfl⟩ := ofNative_array_iff.mp ht
  refine ⟨_, rfl, ofNative_array_iff.mpr ?_, fun hne hnumbers => ?_⟩
  · rw [← common?_perm h]
    refine ⟨fun v hv => hitems v (h.mem_iff.mpr hv), kind,
      fun v hv => hkind v (h.mem_iff.mpr hv), ?_⟩
    have hnil : items = [] ↔ items' = [] := by
      rw [← List.length_eq_zero_iff, ← List.length_eq_zero_iff, h.length_eq]
    simp only [hnil]
  · rw [if_neg hne]
    rcases hwidth : Width.ofArray? items with _ | w
    · rcases Width.ofArray?_eq_none hwidth with hnil | ⟨v, hv, htype⟩
      · exact absurd hnil hne
      · exact absurd (hnumbers v hv) htype
    obtain ⟨v, hv⟩ := List.exists_mem_of_ne_nil items hne
    have hbecome := ofNative_become (hitems v hv)
    have hcommon : common? items = some w.schema := congrArg (Option.map Width.schema) hwidth
    rw [← hkind v hv]
    rw [hcommon] at hbecome ⊢
    rw [kind_of_ofNative hbecome]
    exact Width.widest_schema hwidth

/-! ### Values from inferred trees -/

theorem toNatives_eq_map (items : List Tag) : toNatives items = items.map toNative := by
  induction items with
  | nil => rfl
  | cons t items ih => rw [toNatives, ih, List.map_cons]

theorem toNative_of_toInt? {t : Tag} {n : Int} (h : t.toInt? = some n) :
    t.toNative = .integer n := by
  cases t with
  | byte _ | short _ | int _ | long _ =>
    obtain rfl := Option.some.inj h
    rfl
  | _ => contradiction

theorem toNative_double {x : Float64Bits} (h : x.isFinite) : (double x).toNative = .real x :=
  if_pos h

/-- The tag that a value becomes without a schema tells the value again. -/
def Recalls (v : Native) : Prop :=
  ∀ t, ofNative none v = .ok t → t.toNative = v.withoutBooleans

theorem recalls_integer (n : Int) : Recalls (.integer n) := by
  intro t ht
  rcases ofNative_free_integer n with ⟨-, u, hu, hn⟩ | ⟨-, fault, hfault, -⟩
  · obtain rfl := Except.ok.inj (ht.symm.trans hu)
    exact toNative_of_toInt? hn
  · exact absurd (ht.symm.trans hfault) nofun

theorem recalls_real {x : Float64Bits} (h : x.isFinite) : Recalls (.real x) := by
  intro t ht
  obtain rfl := Except.ok.inj ht
  exact toNative_double h

/-- Where integers do not stand among fractions, an element of an array comes to the same as by
itself. -/
theorem become_recalls {items : List Native} (halike : (Native.array items).NumbersAlike)
    {v : Native} (hv : v ∈ items) (hproper : v.Proper) (hrecalls : Recalls v) {t : Tag}
    (ht : ofNative (common? items) v = .ok t) : t.toNative = v.withoutBooleans := by
  rcases hwidth : Width.ofArray? items with _ | w
  · rw [common?, hwidth] at ht
    exact hrecalls t ht
  rw [common?, hwidth] at ht
  obtain ⟨⟨v₀, hv₀, hwidth₀⟩, hrank⟩ := Width.ofArray?_eq_some hwidth
  obtain ⟨u, hu, hle⟩ := hrank v hv
  by_cases hw : w = .double
  · -- one of the numbers is a fraction, so all of them are
    subst hw
    obtain ⟨x₀, rfl⟩ := Width.eq_real_of_double hwidth₀
    cases v with
    | integer n => exact absurd hv₀ (halike n x₀ hv)
    | real x => exact hrecalls t ht
    | _ => contradiction
  · obtain ⟨n, rfl⟩ := Width.eq_integer_of_rank hu hle hw
    rcases ofNative_width hu hle hw with ⟨-, t', ht', hn⟩ | ⟨-, fault, hfault, -⟩
    · obtain rfl := Except.ok.inj (ht.symm.trans ht')
      exact toNative_of_toInt? hn
    · exact absurd (ht.symm.trans hfault) nofun

theorem recalls_array {items : List Native} (halike : (Native.array items).NumbersAlike)
    (hproper : ∀ v ∈ items, v.Proper) (h : ∀ v ∈ items, Recalls v) : Recalls (.array items) := by
  intro t ht
  obtain ⟨hitems, kind, -, rfl⟩ := ofNative_array_iff.mp ht
  have heach : ∀ v ∈ items, (become (common? items) v).toNative = v.withoutBooleans := fun v hv =>
    become_recalls halike hv (hproper v hv) (h v hv) (ofNative_become (hitems v hv))
  rw [toNative, toNatives_eq_map, List.map_map, Native.withoutBooleans,
    Native.itemsWithoutBooleans_eq_map]
  exact congrArg Native.array (List.map_congr_left heach)

/-- The keys of an object ascend already, so its children are not reordered. -/
theorem recalls_object {fields : List (String × Native)} (hkeys : (Native.object fields).Proper)
    (h : ∀ f ∈ fields, Recalls f.2) : Recalls (.object fields) := by
  intro t ht
  have hnodup : (fields.map Prod.fst).Nodup := hkeys.imp fun hlt heq => by simp [heq] at hlt
  rw [ofNative_free_object, ofNative_compound] at ht
  rcases ofFields_outcome Compound.holds_empty hnodup with ⟨es, hes, hfields⟩ |
    ⟨_, _, fault, _, hfields⟩ | ⟨_, fault, hfields, _⟩ <;> rw [hfields] at ht
  rotate_left
  · contradiction
  · contradiction
  obtain rfl := Except.ok.inj ht
  have hboth := (List.forall₂_and_left _ _).mpr ⟨h, hes⟩
  have hnames : fields.map Prod.fst = es.map Prod.fst := by
    rw [← List.forall₂_eq_eq_eq, List.forall₂_map_left_iff, List.forall₂_map_right_iff]
    exact hes.imp fun f e hfe => hfe.1
  have hvalues : fields.map (fun f => (f.1, f.2.withoutBooleans)) =
      es.map fun e => (e.1, e.2.toNative) := by
    rw [← List.forall₂_eq_eq_eq, List.forall₂_map_left_iff, List.forall₂_map_right_iff]
    exact hboth.imp fun f e ⟨hf, hname, he⟩ => Prod.ext hname (hf e.2 he).symm
  have hsorted : es.mergeSort nameLe = es := by
    refine List.mergeSort_of_pairwise ?_
    have hascending : (es.map Prod.fst).Pairwise (· < ·) := hnames ▸ hkeys
    refine (List.pairwise_map.mp hascending).imp fun hlt => ?_
    rw [nameLe, decide_eq_false (String.lt_asymm hlt)]
    rfl
  rw [List.nil_append, toNative, ofFields_toFields (hnames ▸ hnodup), hsorted, toFields_eq_map,
    ← hvalues, Native.withoutBooleans, Native.fieldsWithoutBooleans_eq_map]

/-- By induction on the value. -/
theorem recalls {v : Native} (hproper : v.All Native.Proper) (halike : v.All Native.NumbersAlike) :
    Recalls v := by
  induction hproper with
  | @node v here inside ih =>
    have hchildren : ∀ u ∈ v.children, Recalls u := fun u hu => ih u hu (halike.child hu)
    cases v with
    | null => exact nofun
    | bool b =>
      intro t ht
      obtain rfl := Except.ok.inj ht
      cases b <;> rfl
    | integer n => exact recalls_integer n
    | real x => exact recalls_real here
    | string s =>
      intro t ht
      obtain rfl := Except.ok.inj ht
      rfl
    | array items => exact recalls_array halike.here (fun u hu => (inside u hu).here) hchildren
    | object fields =>
      exact recalls_object here fun f hf => hchildren f.2 (List.mem_map_of_mem hf)

/-! ### The whole of inference -/

/-- A value that is converted without a schema is told again by its tag, where no array of it mixes
integers and fractions. An array is converted in every order of its elements or in none; the kind
of the list is always the same, the widest of all numbers if that is what they are, and so is what
becomes of each element. -/
theorem ofNative_free_spec :
    (∀ v t, v.All Native.Proper → v.All Native.NumbersAlike → ofNative none v = .ok t →
      t.toNative = v.withoutBooleans) ∧
    ∀ items items', items.Perm items' →
      ((∃ t, ofNative none (.array items) = .ok t) ↔ ∃ t, ofNative none (.array items') = .ok t) ∧
      ∀ t, ofNative none (.array items) = .ok t → ∃ kind become,
        t = list kind (items.map become) ∧
        ofNative none (.array items') = .ok (list kind (items'.map become)) ∧
        (items ≠ [] → (∀ v ∈ items, v.type = .number) → Widest items kind) := by
  refine ⟨fun v t hproper halike ht => recalls hproper halike t ht, fun items items' h =>
    ⟨⟨fun ⟨t, ht⟩ => ?_, fun ⟨t, ht⟩ => ?_⟩, fun t ht => ?_⟩⟩
  · obtain ⟨_, _, ht', _⟩ := ofNative_array_perm h ht
    exact ⟨_, ht'⟩
  · obtain ⟨_, _, ht', _⟩ := ofNative_array_perm h.symm ht
    exact ⟨_, ht'⟩
  · obtain ⟨kind, hspec⟩ := ofNative_array_perm h ht
    exact ⟨kind, _, hspec⟩

/-- Arrays of truth values, of integers of two widths, and of nothing. -/
def nestedArrays : List Native :=
  [.array [.bool true, .bool false], .array [.integer 1, .integer (2 ^ 40)], .array []]

theorem ofNative_free_spec_nested :
    (Native.array nestedArrays).All Native.Proper ∧
    (Native.array nestedArrays).All Native.NumbersAlike ∧
    ∃ t, ofNative none (.array nestedArrays) = .ok t ∧
      t.toNative = .array [.array [.integer 1, .integer 0],
        .array [.integer 1, .integer (2 ^ 40)], .array []] ∧
      ∃ t', ofNative none (.array nestedArrays.reverse) = .ok t' := by
  have hflat {P : Native → Prop} (items : List Native) (h : P (.array items))
      (hitems : ∀ v ∈ items, v.children = [] ∧ P v) : (Native.array items).All P :=
    .node h fun v hv => .node (hitems v hv).2 (by simp [(hitems v hv).1])
  have hproper : (Native.array nestedArrays).All Native.Proper := by
    refine .node trivial fun u hu => ?_
    simp only [Native.children, nestedArrays, List.mem_cons, List.not_mem_nil, or_false] at hu
    rcases hu with rfl | rfl | rfl <;>
      exact hflat _ trivial (by simp [Native.children, Native.Proper])
  have halike : (Native.array nestedArrays).All Native.NumbersAlike := by
    refine .node (by simp [nestedArrays, Native.NumbersAlike]) fun u hu => ?_
    simp only [Native.children, nestedArrays, List.mem_cons, List.not_mem_nil, or_false] at hu
    rcases hu with rfl | rfl | rfl <;>
      exact hflat _ (by simp [Native.NumbersAlike]) (by simp [Native.children, Native.NumbersAlike])
  have htag : ofNative none (.array nestedArrays) = .ok (.list .list [.list .byte [.byte 1, .byte 0],
      .list .long [.long 1, .long (2 ^ 40)], .list .endMark []]) := by rfl
  obtain ⟨hfaithful, hperm⟩ := ofNative_free_spec
  obtain ⟨hreversed, -⟩ := hperm nestedArrays _ (List.reverse_perm nestedArrays).symm
  exact ⟨hproper, halike, _, htag, hfaithful _ _ hproper halike htag, hreversed.mp ⟨_, htag⟩⟩

end Tag

end Nbt

end MinecraftWire
