import MinecraftWire.Proofs.Nbt.Conversion.Steps

/-! Conversion under a schema as a whole. What comes out obeys the schema wherever the schema
reaches, and carries the values that went in. What fails, fails for something at one of the places
that the conversion meets, and the fault tells what: a misfit, a number out of range, an empty key,
or an array of several types that no schema governs. -/

namespace MinecraftWire

namespace Native

/-- The parts of an array or an object. -/
def children : Native → List Native
  | array items => items
  | object fields => fields.map Prod.snd
  | _ => []

/-- A property of a value and of all values inside it. -/
inductive All (P : Native → Prop) : Native → Prop where
  | node {v : Native} (hv : P v) (h : ∀ u ∈ v.children, u.All P) : v.All P

/-- No key stands twice in an object. -/
def DistinctKeys : Native → Prop
  | object fields => (fields.map Prod.fst).Nodup
  | _ => True

end Native

namespace Nbt

/-! ### What comes out -/

/-- The tag has the kind of the schema, and so has everything in it that the schema tells of. -/
inductive Schema.Obeys : Schema → Tag → Prop where
  | scalar {s : Schema} {t : Tag} (hkind : t.kind = s.kind) (hlist : s.kind ≠ .list)
      (hcompound : s.kind ≠ .compound) : Obeys s t
  | list {element : Schema} {items : List Tag} (h : ∀ t ∈ items, Obeys element t) :
      Obeys (.list element) (.list element.kind items)
  | compound {schemas : List (String × Schema)} {entries : List (String × Tag)}
      (h : ∀ e ∈ entries, ∀ s, schemas.lookup e.1 = some s → Obeys s e.2) :
      Obeys (.compound schemas) (.compound entries)

/-- The tag stands for the value: the same integers and strings, elements in the same order, fields
under the same names. A number that becomes no integer becomes a double or the nearest float. -/
inductive Tag.Carries : Native → Tag → Prop where
  | integer {v : Native} {t : Tag} {n : Int} (hv : v.toInt? = some n) (ht : t.toInt? = some n) :
      Carries v t
  | float {v : Native} {x : Float64Bits} (hv : v.toDouble? = some x) : Carries v (.float x.narrow)
  | double {v : Native} {x : Float64Bits} (hv : v.toDouble? = some x) : Carries v (.double x)
  | string (s : String) : Carries (.string s) (.string s)
  | byteArray {items : List Native} {vs : List Int8}
      (h : items.map Native.toInt? = vs.map fun v => some v.toInt) :
      Carries (.array items) (.byteArray vs)
  | intArray {items : List Native} {vs : List Int32}
      (h : items.map Native.toInt? = vs.map fun v => some v.toInt) :
      Carries (.array items) (.intArray vs)
  | longArray {items : List Native} {vs : List Int64}
      (h : items.map Native.toInt? = vs.map fun v => some v.toInt) :
      Carries (.array items) (.longArray vs)
  | list {items : List Native} {kind : TagKind} {ts : List Tag}
      (h : List.Forall₂ Carries items ts) : Carries (.array items) (.list kind ts)
  | compound {fields : List (String × Native)} {entries : List (String × Tag)}
      (hnames : entries.map Prod.fst = fields.map Prod.fst)
      (h : List.Forall₂ Carries (fields.map Prod.snd) (entries.map Prod.snd)) :
      Carries (.object fields) (.compound entries)

/-! ### Places -/

/-- All elements are numbers, and not all are integers. -/
def Fractional (items : List Native) : Prop :=
  (∀ v ∈ items, v.type = .number) ∧ ∃ x, .real x ∈ items

/-- Two elements are of different types. -/
def Mixed (items : List Native) : Prop :=
  ∃ v ∈ items, ∃ u ∈ items, v.type ≠ u.type

/-- Numbers are fractional if they are as wide as a double. -/
theorem Width.fractional_iff {items : List Native} {w : Width} (h : ofArray? items = some w) :
    Fractional items ↔ w = double := by
  obtain ⟨⟨v, hv, hwidth⟩, hrank⟩ := ofArray?_eq_some h
  constructor
  · rintro ⟨-, x, hx⟩
    by_contra hw
    obtain ⟨u, hu, hle⟩ := hrank _ hx
    obtain ⟨n, hn⟩ := eq_integer_of_rank hu hle hw
    contradiction
  · rintro rfl
    refine ⟨fun u hu => have ⟨_, hwidth, _⟩ := hrank u hu; type_of_of? hwidth, ?_⟩
    obtain ⟨x, rfl⟩ := eq_real_of_double hwidth
    exact ⟨x, hv⟩

/-- The schemas of the fields of an object, if objects are what the schema is for. Without a schema
all fields are free. -/
def Schema.fields? : Option Schema → Option (List (String × Schema))
  | none => some []
  | some (.compound schemas) => some schemas
  | some _ => none

/-- The conversion of a value under a schema meets another value under a schema, or under none.
Integers among fractions are no longer integers, and are not met as such. -/
inductive Meets : Option Schema → Native → Option Schema → Native → Prop where
  | here (o : Option Schema) (v : Native) : Meets o v o v
  | item {s element : Schema} {items : List Native} {v u : Native} {o : Option Schema}
      (helement : s.element? = some element) (hv : v ∈ items) (h : Meets (some element) v o u) :
      Meets (some s) (.array items) o u
  | free {items : List Native} {v u : Native} {o : Option Schema} (hitems : ¬ Fractional items)
      (hv : v ∈ items) (h : Meets none v o u) : Meets none (.array items) o u
  | field {o o' : Option Schema} {schemas : List (String × Schema)}
      {fields : List (String × Native)} {name : String} {v u : Native}
      (hschemas : Schema.fields? o = some schemas) (hv : (name, v) ∈ fields)
      (h : Meets (schemas.lookup name) v o' u) : Meets o (.object fields) o' u

/-- An integer outside the width that is demanded of it; one without a schema may fill a long. -/
def Beyond (o : Option Schema) (v : Native) : Prop :=
  ∃ n b, v.toInt? = some n ∧ (o.getD .long).bounds? = some b ∧ ¬ (b.1 ≤ n ∧ n ≤ b.2)

/-- What is wrong with a value under a schema, and the class of the fault for it. -/
inductive Cause : Fault.Kind → Option Schema → Native → Prop where
  | misfit {o : Option Schema} {v : Native} (h : ¬ Schema.Takes o v) : Cause .schemaMismatch o v
  | beyond {o : Option Schema} {v : Native} (h : Beyond o v) : Cause .range o v
  | tooGreat {v : Native} {x : Float64Bits} (hv : v.toDouble? = some x) (hx : Tag.TooGreat x) :
      Cause .range (some .float) v
  | emptyKey {o : Option Schema} {fields : List (String × Native)}
      (h : "" ∈ fields.map Prod.fst) : Cause .structural o (.object fields)
  | mixed {items : List Native} (h : Mixed items) : Cause .structural none (.array items)

/-- A conversion gives a tag that obeys the schema and carries the value, or fails for a cause. -/
def Settled (o : Option Schema) (v : Native) : Prop :=
  (∃ t, Tag.ofNative o v = .ok t ∧ (∀ s, o = some s → s.Obeys t) ∧ Tag.Carries v t) ∨
  ∃ fault, Tag.ofNative o v = .error fault ∧ ∃ o' u, Meets o v o' u ∧ Cause fault.kind o' u

theorem Schema.obeys_of_kind {s : Schema} (hlist : s.kind ≠ .list) (hcompound : s.kind ≠ .compound)
    {t : Tag} (h : t.kind = s.kind) : ∀ s', some s = some s' → s'.Obeys t := by
  rintro _ ⟨⟩
  exact .scalar h hlist hcompound

theorem Schema.eq_compound_of_fields? {s : Schema} {schemas : List (String × Schema)}
    (h : fields? (some s) = some schemas) : s = .compound schemas := by
  cases s with
  | compound schemas' => exact congrArg Schema.compound (Option.some.inj h)
  | _ => contradiction

theorem ofNative_object {o : Option Schema} {schemas : List (String × Schema)}
    (hschemas : Schema.fields? o = some schemas) (fields : List (String × Native)) :
    Tag.ofNative o (.object fields) =
      (Tag.ofFields schemas .empty fields).map Compound.toTag := by
  cases o with
  | none =>
    obtain rfl := Option.some.inj hschemas
    rfl
  | some s =>
    obtain rfl := Schema.eq_compound_of_fields? hschemas
    rfl

/-- The parts of a container are met under their own schemas. -/
theorem Cause.inside {o o₁ : Option Schema} {v v₁ : Native} {kind : Fault.Kind}
    (hstep : ∀ {o' u}, Meets o₁ v₁ o' u → Meets o v o' u)
    (h : ∃ o' u, Meets o₁ v₁ o' u ∧ Cause kind o' u) : ∃ o' u, Meets o v o' u ∧ Cause kind o' u :=
  have ⟨o', u, hmeets, hcause⟩ := h
  ⟨o', u, hstep hmeets, hcause⟩

namespace Settled

/-- What fails fails for a cause. -/
theorem cause {o : Option Schema} {v : Native} (h : Settled o v) {fault : Fault}
    (hfault : Tag.ofNative o v = .error fault) :
    ∃ o' u, Meets o v o' u ∧ Cause fault.kind o' u := by
  rcases h with ⟨t, ht, -⟩ | ⟨other, hother, hcause⟩
  · rw [hfault] at ht
    contradiction
  · obtain rfl := Except.error.inj (hother.symm.trans hfault)
    exact hcause

/-- What comes out obeys the schema and carries the value. -/
theorem sound {o : Option Schema} {v : Native} (h : Settled o v) {t : Tag}
    (ht : Tag.ofNative o v = .ok t) : (∀ s, o = some s → s.Obeys t) ∧ Tag.Carries v t := by
  rcases h with ⟨u, hu, hsound⟩ | ⟨fault, hfault, -⟩
  · obtain rfl := Except.ok.inj (hu.symm.trans ht)
    exact hsound
  · rw [hfault] at ht
    contradiction

theorem misfit {s : Schema} {v : Native} (h : ¬ Schema.Takes (some s) v) : Settled (some s) v :=
  .inr ⟨_, Tag.ofNative_misfit h, _, _, .here _ _, .misfit h⟩

/-! ### Scalars -/

theorem integer {s : Schema} {b : Int × Int} (hb : s.bounds? = some b) {v : Native} {n : Int}
    (hv : v.toInt? = some n) : Settled (some s) v := by
  rw [Settled, Tag.ofNative_integer hb hv]
  rcases Tag.integer_outcome hb n with ⟨-, t, ht, hkind, hint⟩ | ⟨hrange, fault, ht, hfault⟩
  · refine .inl ⟨t, ht, Schema.obeys_of_kind ?_ ?_ hkind, .integer hv hint⟩ <;> intro h <;>
      cases s <;> contradiction
  · exact .inr ⟨fault, ht, _, _, .here _ _, hfault ▸ .beyond ⟨n, b, hv, hb, hrange⟩⟩

theorem float {v : Native} {x : Float64Bits} (hv : v.toDouble? = some x) :
    Settled (some .float) v := by
  rw [Settled, Tag.ofNative_float hv]
  rcases Tag.ofDouble_outcome x with ht | ⟨hx, fault, ht, hfault⟩
  · exact .inl ⟨_, ht, Schema.obeys_of_kind (by decide) (by decide) rfl, .float hv⟩
  · exact .inr ⟨fault, ht, _, _, .here _ _, hfault ▸ .tooGreat hv hx⟩

theorem double {v : Native} {x : Float64Bits} (hv : v.toDouble? = some x) :
    Settled (some .double) v :=
  .inl ⟨_, Tag.ofNative_double hv, Schema.obeys_of_kind (by decide) (by decide) rfl, .double hv⟩

theorem string (s : String) : Settled (some .string) (.string s) :=
  .inl ⟨_, rfl, Schema.obeys_of_kind (by decide) (by decide) rfl, .string s⟩

/-! ### Arrays -/

theorem integers {α : Type} [FixedInteger α] [FixedInteger.Exact α] {s element : Schema}
    (helement : s.element? = some element)
    (hb : element.bounds? = some (FixedInteger.lower α, FixedInteger.upper α))
    (hlist : s.kind ≠ .list) (hcompound : s.kind ≠ .compound) {make : List α → Tag}
    (hkind : ∀ vs, (make vs).kind = s.kind) {items : List Native}
    (hcarries : ∀ vs : List α,
      (items.map Native.toInt? = vs.map fun x => some (FixedInteger.toInt x)) →
        Tag.Carries (.array items) (make vs))
    (heq : Tag.ofNative (some s) (.array items) = (integerArray α s (.array items)).map make) :
    Settled (some s) (.array items) := by
  rw [Settled, heq]
  rcases Tag.integerArray_outcome α s items with ⟨vs, hvs, ht⟩ | ⟨v, hv, hint, fault, ht, hfault⟩ |
    ⟨v, hv, n, hint, hrange, fault, ht, hfault⟩ <;> rw [ht]
  · exact .inl ⟨_, rfl, Schema.obeys_of_kind hlist hcompound (hkind vs), hcarries vs hvs⟩
  · refine .inr ⟨fault, rfl, some element, v, .item helement hv (.here _ _), hfault ▸ .misfit ?_⟩
    rw [Schema.takes_integer_iff hb, hint]
    simp
  · exact .inr ⟨fault, rfl, some element, v, .item helement hv (.here _ _),
      hfault ▸ .beyond ⟨n, _, hint, hb, hrange⟩⟩

theorem carries {o : Option Schema} {items : List Native} {ts : List Tag}
    (h : ∀ v ∈ items, Settled o v)
    (hts : List.Forall₂ (fun v t => Tag.ofNative o v = .ok t) items ts) :
    List.Forall₂ Tag.Carries items ts :=
  ((List.forall₂_and_left _ _).mpr ⟨h, hts⟩).imp fun _ _ hpair => (hpair.1.sound hpair.2).2

theorem list {element : Schema} {items : List Native} (h : ∀ v ∈ items, Settled (some element) v) :
    Settled (some (.list element)) (.array items) := by
  rcases Tag.ofNative_list_outcome element items with ⟨ts, hts, ht⟩ | ⟨v, hv, fault, hfault, ht⟩
  · refine .inl ⟨_, ht, ?_, .list ?_⟩
    · rintro _ ⟨⟩
      refine .list fun t hmem => ?_
      obtain ⟨v, hv, hvt⟩ := exists_left_of_forall₂ hts hmem
      exact ((h v hv).sound hvt).1 _ rfl
    · exact carries h hts
  · exact .inr ⟨fault, ht, Cause.inside (.item rfl hv) ((h v hv).cause hfault)⟩

theorem width {v : Native} {u w : Width} (hu : Width.of? v = some u) (hrank : u.rank ≤ w.rank) :
    Settled (some w.schema) v := by
  by_cases hw : w = .double
  · subst hw
    obtain ⟨x, hx⟩ := Native.exists_toDouble (Width.type_of_of? hu)
    exact double hx
  · obtain ⟨n, rfl⟩ := Width.eq_integer_of_rank hu hrank hw
    cases w with
    | double => contradiction
    | int | long => exact integer rfl rfl

theorem numbers {items : List Native} {w : Width} (hitems : Width.ofArray? items = some w) :
    Settled none (.array items) := by
  obtain ⟨⟨v₀, hv₀, hwidth⟩, hrank⟩ := Width.ofArray?_eq_some hitems
  have helement : ∀ v ∈ items, Settled (some w.schema) v := fun v hv =>
    have ⟨_, hu, hle⟩ := hrank v hv
    width hu hle
  rw [Settled, Tag.ofNative_numbers hitems]
  rcases Tag.ofNative_list_outcome w.schema items with ⟨ts, hts, ht⟩ |
    ⟨v, hv, fault, hfault, ht⟩ <;> rw [ht]
  · exact .inl ⟨_, rfl, by simp, .list (carries helement hts)⟩
  obtain ⟨u, hu, hle⟩ := hrank v hv
  by_cases hw : w = .double
  · subst hw
    obtain ⟨x, hx⟩ := Native.exists_toDouble (Width.type_of_of? hu)
    rw [Width.schema, Tag.ofNative_double hx] at hfault
    contradiction
  -- none of the numbers is a fraction, so this one is an integer that fills more than a long
  obtain ⟨n, rfl⟩ := Width.eq_integer_of_rank hu hle hw
  rcases Tag.ofNative_width hu hle hw with ⟨-, t, hok, -⟩ | ⟨hrange, other, hother, hkind⟩
  · rw [hfault] at hok
    contradiction
  · obtain rfl := Except.error.inj (hfault.symm.trans hother)
    exact .inr ⟨fault, rfl, _, _, .free (mt (Width.fractional_iff hitems).mp hw) hv (.here _ _),
      hkind ▸ .beyond ⟨n, _, rfl, rfl, hrange⟩⟩

theorem free {items : List Native} (hitems : Width.ofArray? items = none)
    (h : ∀ v ∈ items, Settled none v) : Settled none (.array items) := by
  have hwhole : ¬ Fractional items := by
    rintro ⟨hnumbers, x, hx⟩
    rcases Width.ofArray?_eq_none hitems with rfl | ⟨v, hv, hother⟩
    · contradiction
    · exact hother (hnumbers v hv)
  rcases Tag.ofNative_free_outcome hitems with ⟨ts, kind, hts, ht⟩ | ⟨v, hv, fault, hfault, ht⟩ |
    ⟨hmixed, fault, ht, hfault⟩
  · exact .inl ⟨_, ht, by simp, .list (carries h hts)⟩
  · exact .inr ⟨fault, ht, Cause.inside (.free hwhole hv) ((h v hv).cause hfault)⟩
  · exact .inr ⟨fault, ht, _, _, .here _ _, hfault ▸ .mixed hmixed⟩

/-! ### Objects -/

theorem object {o : Option Schema} {schemas : List (String × Schema)}
    (hschemas : Schema.fields? o = some schemas) {fields : List (String × Native)}
    (hkeys : (fields.map Prod.fst).Nodup)
    (h : ∀ f ∈ fields, Settled (schemas.lookup f.1) f.2) : Settled o (.object fields) := by
  rw [Settled, ofNative_object hschemas]
  rcases Tag.ofFields_outcome Compound.holds_empty hkeys with ⟨es, hes, ht⟩ |
    ⟨⟨name, v⟩, hv, fault, hfault, ht⟩ | ⟨hempty, fault, ht, hfault⟩ <;> rw [ht]
  · have hparts := (List.forall₂_and_left _ _).mpr ⟨h, hes⟩
    refine .inl ⟨_, rfl, ?_, .compound ?_ ?_⟩
    · rintro s rfl
      obtain rfl := Schema.eq_compound_of_fields? hschemas
      refine .compound fun e he s' hs' => ?_
      obtain ⟨f, hf, hname, hvt⟩ := exists_left_of_forall₂ hes he
      exact ((h f hf).sound hvt).1 s' (hname ▸ hs')
    · rw [← List.forall₂_eq_eq_eq, List.forall₂_map_left_iff, List.forall₂_map_right_iff]
      exact (hes.imp fun _ _ hpair => hpair.1.symm).flip
    · rw [List.forall₂_map_left_iff, List.forall₂_map_right_iff]
      exact hparts.imp fun _ _ hpair => (hpair.1.sound hpair.2.2).2
  · exact .inr ⟨fault, rfl, Cause.inside (.field hschemas hv) ((h _ hv).cause hfault)⟩
  · exact .inr ⟨fault, rfl, _, _, .here _ _, hfault ▸ .emptyKey hempty⟩

/-! ### One value, with its parts settled -/

theorem of_free {v : Native} (hkeys : v.DistinctKeys) (h : ∀ u ∈ v.children, ∀ o, Settled o u) :
    Settled none v := by
  cases v with
  | null => exact .inr ⟨_, rfl, _, _, .here _ _, .misfit (by simp [Schema.Takes, Native.type])⟩
  | bool b =>
    refine .inl ⟨_, rfl, by simp, .integer rfl ?_⟩
    cases b <;> rfl
  | integer n =>
    rcases Tag.ofNative_free_integer n with ⟨-, t, ht, hint⟩ | ⟨hrange, fault, ht, hfault⟩
    · exact .inl ⟨t, ht, by simp, .integer rfl hint⟩
    · exact .inr ⟨fault, ht, _, _, .here _ _, hfault ▸ .beyond ⟨n, _, rfl, rfl, hrange⟩⟩
  | real x => exact .inl ⟨_, rfl, by simp, .double rfl⟩
  | string s => exact .inl ⟨_, rfl, by simp, .string s⟩
  | array items =>
    rcases hitems : Width.ofArray? items with _ | w
    · exact free hitems fun v hv => h v hv none
    · exact numbers hitems
  | object fields => exact object rfl hkeys fun f hf => h f.2 (List.mem_map_of_mem hf) _

theorem of_schema (s : Schema) {v : Native} (hkeys : v.DistinctKeys)
    (h : ∀ u ∈ v.children, ∀ o, Settled o u) : Settled (some s) v := by
  by_cases htakes : Schema.Takes (some s) v
  swap
  · exact misfit htakes
  cases s with
  | byte | short | int | long =>
    obtain ⟨n, hn⟩ := htakes
    exact integer rfl hn
  | float =>
    obtain ⟨x, hx⟩ := Native.exists_toDouble htakes
    exact float hx
  | double =>
    obtain ⟨x, hx⟩ := Native.exists_toDouble htakes
    exact double hx
  | string =>
    cases v with
    | string s => exact string s
    | _ => contradiction
  | list element =>
    cases v with
    | array items => exact list fun v hv => h v hv _
    | _ => contradiction
  | compound schemas =>
    cases v with
    | object fields => exact object rfl hkeys fun f hf => h f.2 (List.mem_map_of_mem hf) _
    | _ => contradiction
  | byteArray =>
    cases v with
    | array items =>
      exact integers rfl rfl (by decide) (by decide) (fun _ => rfl) (fun _ => .byteArray)
        (Tag.ofNative_byteArray items)
    | _ => contradiction
  | intArray =>
    cases v with
    | array items =>
      exact integers rfl rfl (by decide) (by decide) (fun _ => rfl) (fun _ => .intArray)
        (Tag.ofNative_intArray items)
    | _ => contradiction
  | longArray =>
    cases v with
    | array items =>
      exact integers rfl rfl (by decide) (by decide) (fun _ => rfl) (fun _ => .longArray)
        (Tag.ofNative_longArray items)
    | _ => contradiction

end Settled

/-- Whatever the value and the schema, conversion gives the right tag or fails for a cause. -/
theorem settled {v : Native} (h : v.All Native.DistinctKeys) (o : Option Schema) : Settled o v := by
  induction h generalizing o with
  | node hkeys _ ih =>
    cases o with
    | none => exact .of_free hkeys ih
    | some s => exact .of_schema s hkeys ih

/-! ### What is met -/

/-- What is out of range is not converted. -/
theorem Beyond.fails {o : Option Schema} {v : Native} (h : Beyond o v) (t : Tag) :
    Tag.ofNative o v ≠ .ok t := by
  obtain ⟨n, b, hv, hb, hrange⟩ := h
  intro ht
  cases o with
  | some s =>
    change s.bounds? = some b at hb
    rw [Tag.ofNative_integer hb hv] at ht
    rcases Tag.integer_outcome hb n with ⟨hn, -⟩ | ⟨-, fault, hfault, -⟩
    · exact hrange hn
    · rw [ht] at hfault
      contradiction
  | none =>
    obtain rfl := Option.some.inj hb
    cases v with
    | integer m =>
      obtain rfl := Option.some.inj hv
      rcases Tag.ofNative_free_integer m with ⟨hn, -⟩ | ⟨-, fault, hfault, -⟩
      · exact hrange hn
      · rw [ht] at hfault
        contradiction
    | bool b =>
      obtain rfl := Option.some.inj hv
      exact hrange (by cases b <;> decide)
    | _ => contradiction

theorem exists_integer {α : Type} [FixedInteger α] [FixedInteger.Exact α] [FixedInteger.Faithful α]
    {s element : Schema} (hb : element.bounds? = some (FixedInteger.lower α, FixedInteger.upper α))
    {items : List Native} {make : List α → Tag} {t : Tag}
    (ht : (integerArray α s (.array items)).map make = .ok t) {v : Native} (hv : v ∈ items) :
    ∃ u, Tag.ofNative (some element) v = .ok u := by
  rcases Tag.integerArray_outcome α s items with ⟨vs, hvs, -⟩ | ⟨_, _, _, fault, hfault, -⟩ |
    ⟨_, _, _, _, _, fault, hfault, -⟩
  · have hmem : v.toInt? ∈ vs.map fun x => some (FixedInteger.toInt x) :=
      hvs ▸ List.mem_map_of_mem hv
    obtain ⟨x, -, hx⟩ := List.mem_map.mp hmem
    rw [Tag.ofNative_integer hb hx.symm]
    rcases Tag.integer_outcome hb (FixedInteger.toInt x) with ⟨-, u, hu, -⟩ | ⟨hrange, -⟩
    · exact ⟨u, hu⟩
    · exact absurd ⟨FixedInteger.Faithful.lower_le x, FixedInteger.Faithful.le_upper x⟩ hrange
  all_goals
    rw [hfault] at ht
    contradiction

/-- The elements of an array that is converted are converted. -/
theorem exists_item {s element : Schema} (helement : s.element? = some element)
    {items : List Native} {t : Tag} (ht : Tag.ofNative (some s) (.array items) = .ok t)
    {v : Native} (hv : v ∈ items) : ∃ u, Tag.ofNative (some element) v = .ok u := by
  cases s with
  | list element' =>
    obtain rfl := Option.some.inj helement
    rcases Tag.ofNative_list_outcome element' items with ⟨ts, hts, -⟩ | ⟨_, _, fault, -, hfault⟩
    · obtain ⟨u, -, hu⟩ := exists_right_of_forall₂ hts hv
      exact ⟨u, hu⟩
    · rw [ht] at hfault
      contradiction
  | byteArray =>
    obtain rfl := Option.some.inj helement
    exact exists_integer rfl (Tag.ofNative_byteArray items ▸ ht) hv
  | intArray =>
    obtain rfl := Option.some.inj helement
    exact exists_integer rfl (Tag.ofNative_intArray items ▸ ht) hv
  | longArray =>
    obtain rfl := Option.some.inj helement
    exact exists_integer rfl (Tag.ofNative_longArray items ▸ ht) hv
  | _ => contradiction

theorem exists_free {items : List Native} (hitems : ¬ Fractional items) {t : Tag}
    (ht : Tag.ofNative none (.array items) = .ok t) {v : Native} (hv : v ∈ items) :
    ∃ u, Tag.ofNative none v = .ok u := by
  rcases hwidth : Width.ofArray? items with _ | w
  · rcases Tag.ofNative_free_outcome hwidth with ⟨ts, kind, hts, -⟩ | ⟨_, _, fault, -, hfault⟩ |
      ⟨-, fault, hfault, -⟩
    · obtain ⟨u, -, hu⟩ := exists_right_of_forall₂ hts hv
      exact ⟨u, hu⟩
    all_goals
      rw [ht] at hfault
      contradiction
  · rw [Tag.ofNative_numbers hwidth] at ht
    obtain ⟨t', ht'⟩ := exists_item rfl ht hv
    have hw : w ≠ .double := mt (Width.fractional_iff hwidth).mpr hitems
    obtain ⟨u, hu, hle⟩ := (Width.ofArray?_eq_some hwidth).2 v hv
    obtain ⟨n, rfl⟩ := Width.eq_integer_of_rank hu hle hw
    -- under the width of all numbers and under its own, the integer has to fit a long
    rcases Tag.ofNative_free_integer n with ⟨-, u, hok, -⟩ | ⟨hfree, -⟩
    · exact ⟨u, hok⟩
    · rcases Tag.ofNative_width hu hle hw with ⟨hfits, -⟩ | ⟨-, fault, hfault, -⟩
      · exact absurd hfits hfree
      · rw [ht'] at hfault
        contradiction

/-- The fields of an object that is converted are converted. -/
theorem exists_field {o : Option Schema} {schemas : List (String × Schema)}
    (hschemas : Schema.fields? o = some schemas) {fields : List (String × Native)}
    (hkeys : (fields.map Prod.fst).Nodup) {t : Tag} (ht : Tag.ofNative o (.object fields) = .ok t)
    {name : String} {v : Native} (hv : (name, v) ∈ fields) :
    ∃ u, Tag.ofNative (schemas.lookup name) v = .ok u := by
  rw [ofNative_object hschemas] at ht
  rcases Tag.ofFields_outcome Compound.holds_empty hkeys with ⟨es, hes, -⟩ |
    ⟨_, _, fault, -, hfault⟩ | ⟨-, fault, hfault, -⟩
  · obtain ⟨e, -, -, hu⟩ := exists_right_of_forall₂ hes hv
    exact ⟨e.2, hu⟩
  all_goals
    rw [ht] at hfault
    contradiction

/-- What is met in a value that is converted is converted. -/
theorem Meets.converts {o o' : Option Schema} {v u : Native} (h : Meets o v o' u)
    (hkeys : v.All Native.DistinctKeys) {t : Tag} (ht : Tag.ofNative o v = .ok t) :
    ∃ t', Tag.ofNative o' u = .ok t' := by
  induction h generalizing t with
  | here => exact ⟨t, ht⟩
  | item helement hv _ ih =>
    obtain ⟨-, hitems⟩ := hkeys
    obtain ⟨t', ht'⟩ := exists_item helement ht hv
    exact ih (hitems _ hv) ht'
  | free hwhole hv _ ih =>
    obtain ⟨-, hitems⟩ := hkeys
    obtain ⟨t', ht'⟩ := exists_free hwhole ht hv
    exact ih (hitems _ hv) ht'
  | field hschemas hv _ ih =>
    obtain ⟨hnames, hfields⟩ := hkeys
    obtain ⟨t', ht'⟩ := exists_field hschemas hnames ht hv
    exact ih (hfields _ (List.mem_map_of_mem hv)) ht'

/-- A value that is met without a schema stands in a field without one. -/
theorem Meets.exists_free_field {o o' : Option Schema} {v u : Native} (h : Meets o v o' u)
    (ho : o ≠ none) (ho' : o' = none) :
    ∃ schemas fields name w, Meets o v (some (.compound schemas)) (.object fields) ∧
      (name, w) ∈ fields ∧ schemas.lookup name = none ∧ Meets none w none u := by
  induction h with
  | here => exact absurd ho' ho
  | item helement hv _ ih =>
    obtain ⟨schemas, fields, name, w, hobject, hrest⟩ := ih (by simp) ho'
    exact ⟨schemas, fields, name, w, .item helement hv hobject, hrest⟩
  | free => exact absurd rfl ho
  | @field o _ schemas fields name v _ hschemas hv h ih =>
    subst ho'
    obtain ⟨s, rfl⟩ := Option.ne_none_iff_exists'.mp ho
    obtain rfl := Schema.eq_compound_of_fields? hschemas
    rcases hlookup : schemas.lookup name with _ | s
    · exact ⟨schemas, fields, name, v, .here _ _, hv, hlookup, hlookup ▸ h⟩
    · obtain ⟨schemas', fields', name', w, hobject, hrest⟩ := ih (by simp [hlookup]) rfl
      exact ⟨schemas', fields', name', w, .field hschemas hv hobject, hrest⟩

/-! ### The whole conversion -/

theorem Schema.Obeys.kind_eq {s : Schema} {t : Tag} (h : s.Obeys t) : t.kind = s.kind := by
  cases h with
  | scalar hkind _ _ => exact hkind
  | list _ => rfl
  | compound _ => rfl

/-- Nothing is wrong with a value but that a number in it may be out of range. -/
structure Orderly (o : Option Schema) (v : Native) : Prop where
  takes : Schema.Takes o v
  keys (fields : List (String × Native)) : v = .object fields → "" ∉ fields.map Prod.fst
  unmixed (items : List Native) : o = none → v = .array items → ¬ Mixed items

/-- The only cause of a fault in what is otherwise in order is a number out of range. -/
theorem Cause.kind_eq_range {o : Option Schema} {v : Native} {kind : Fault.Kind}
    (h : Cause kind o v) (horderly : Orderly o v) : kind = .range := by
  cases h with
  | misfit h => exact absurd horderly.takes h
  | beyond _ => rfl
  | tooGreat _ _ => rfl
  | emptyKey h => exact absurd h (horderly.keys _ rfl)
  | mixed h => exact absurd h (horderly.unmixed _ rfl rfl)

/-- Conversion under a schema is sound. What comes out is of the kinds that the schema demands and
carries the values. An integer outside the width that is demanded of it makes the conversion fail,
as out of range if nothing else is wrong. A structural fault comes from an empty key, or from an
array of several types in a field without a schema. -/
theorem ofNative_sound {v : Native} (hkeys : v.All Native.DistinctKeys) (s : Schema) :
    (∀ t, Tag.ofNative (some s) v = .ok t → t.kind = s.kind ∧ s.Obeys t ∧ Tag.Carries v t) ∧
    (∀ o u, Meets (some s) v o u → Beyond o u →
      ∃ fault, Tag.ofNative (some s) v = .error fault ∧
        ((∀ o' u', Meets (some s) v o' u' → Orderly o' u') → fault.kind = .range)) ∧
    ∀ fault, Tag.ofNative (some s) v = .error fault → fault.kind = .structural →
      (∃ o fields, Meets (some s) v o (.object fields) ∧ "" ∈ fields.map Prod.fst) ∨
      ∃ schemas fields name w items,
        Meets (some s) v (some (.compound schemas)) (.object fields) ∧ (name, w) ∈ fields ∧
          schemas.lookup name = none ∧ Meets none w none (.array items) ∧ Mixed items := by
  have hsettled := settled hkeys (some s)
  refine ⟨fun t ht => ?_, fun o u hmeets hbeyond => ?_, fun fault hfault hkind => ?_⟩
  · obtain ⟨hobeys, hcarries⟩ := hsettled.sound ht
    exact ⟨(hobeys s rfl).kind_eq, hobeys s rfl, hcarries⟩
  · rcases hconversion : Tag.ofNative (some s) v with fault | t
    · obtain ⟨o', u', hmeets', hcause⟩ := hsettled.cause hconversion
      exact ⟨fault, rfl, fun horderly => hcause.kind_eq_range (horderly o' u' hmeets')⟩
    · obtain ⟨t', ht'⟩ := hmeets.converts hkeys hconversion
      exact absurd ht' (hbeyond.fails t')
  · obtain ⟨o, u, hmeets, hcause⟩ := hsettled.cause hfault
    rw [hkind] at hcause
    cases hcause with
    | emptyKey hempty => exact .inl ⟨o, _, hmeets, hempty⟩
    | @mixed items hmixed =>
      obtain ⟨schemas, fields, name, w, hobject, hfield, hlookup, hfree⟩ :=
        hmeets.exists_free_field (by simp) rfl
      exact .inr ⟨schemas, fields, name, w, items, hobject, hfield, hlookup, hfree, hmixed⟩

/-- A schema for a slot, which tells nothing of the name of what is in it. -/
def slotSchema : Schema :=
  .compound [("slot", .compound [("count", .byte), ("flags", .byteArray)])]

/-- A slot with `n` stones. -/
def slot (n : Int) : Native :=
  .object [("slot", .object [("flags", .array [.bool true, .integer (-1)]), ("count", .integer n),
    ("name", .string "stone")])]

theorem distinctKeys_slot (n : Int) : (slot n).All Native.DistinctKeys := by
  refine .node (by simp [slot, Native.DistinctKeys]) fun u hu => ?_
  obtain rfl := List.mem_singleton.mp hu
  refine .node (by simp [Native.DistinctKeys]) fun u hu => ?_
  simp only [Native.children, List.map_cons, List.map_nil, List.mem_cons, List.not_mem_nil,
    or_false] at hu
  rcases hu with rfl | rfl | rfl
  · refine .node trivial fun u hu => ?_
    simp only [Native.children, List.mem_cons, List.not_mem_nil, or_false] at hu
    rcases hu with rfl | rfl <;> exact .node trivial (List.forall_mem_nil _)
  all_goals exact .node trivial (List.forall_mem_nil _)

/-- Nothing is wrong with a slot but perhaps its count. -/
theorem orderly_slot {n : Int} {o : Option Schema} {u : Native}
    (h : Meets (some slotSchema) (slot n) o u) : Orderly o u := by
  cases h with
  | here => exact ⟨rfl, by simp [slot], by simp⟩
  | field hschemas hv h =>
    obtain rfl := Option.some.inj hschemas
    obtain ⟨rfl, rfl⟩ := Prod.mk.inj (List.mem_singleton.mp hv)
    cases h with
    | here => exact ⟨rfl, by simp, by simp⟩
    | field hschemas hv h =>
      obtain rfl := Option.some.inj hschemas
      simp only [List.mem_cons, Prod.mk.injEq, List.not_mem_nil, or_false] at hv
      -- the flags and their elements, the count, and the name, which is met without a schema
      rcases hv with ⟨rfl, rfl⟩ | ⟨rfl, rfl⟩ | ⟨rfl, rfl⟩
      · cases h with
        | here => exact ⟨rfl, by simp, by simp⟩
        | item helement hv h =>
          obtain rfl := Option.some.inj helement
          simp only [List.mem_cons, List.not_mem_nil, or_false] at hv
          rcases hv with rfl | rfl <;> cases h <;> exact ⟨⟨_, rfl⟩, by simp, by simp⟩
      · cases h
        exact ⟨⟨_, rfl⟩, by simp, by simp⟩
      · cases h
        exact ⟨by simp [Schema.Takes, Native.type, List.lookup_cons], by simp, by simp⟩

/-- A byte has room for 64, and none for 300. -/
theorem ofNative_sound_slot :
    let t : Tag := .compound [("slot", .compound [("flags", .byteArray [1, -1]),
      ("count", .byte 64), ("name", .string "stone")])]
    (∀ n, (slot n).All Native.DistinctKeys) ∧
    (Tag.ofNative (some slotSchema) (slot 64) = .ok t ∧ t.kind = .compound ∧ slotSchema.Obeys t ∧
      Tag.Carries (slot 64) t) ∧
    ∃ fault, Tag.ofNative (some slotSchema) (slot 300) = .error fault ∧ fault.kind = .range := by
  intro t
  refine ⟨distinctKeys_slot, ?_, ?_⟩
  · have htag : Tag.ofNative (some slotSchema) (slot 64) = .ok t := by
      have hflags : Tag.ofNative (some .byteArray) (.array [.bool true, .integer (-1)]) =
          .ok (.byteArray [1, -1]) := rfl
      have hcount : Tag.ofNative (some .byte) (.integer 64) = .ok (.byte 64) := rfl
      have hname : Tag.ofNative none (.string "stone") = .ok (.string "stone") := rfl
      simp [t, slot, slotSchema, Tag.ofNative_compound, Tag.ofFields, List.lookup_cons, hflags,
        hcount, hname, Compound.insert, Compound.empty, Compound.toTag, Tag.kind, Except.map]
    exact ⟨htag, (ofNative_sound (distinctKeys_slot 64) slotSchema).1 _ htag⟩
  · have hmeets : Meets (some slotSchema) (slot 300) (some .byte) (.integer 300) :=
      .field rfl (List.mem_singleton.mpr rfl)
        (.field rfl (List.mem_cons_of_mem _ List.mem_cons_self) (.here _ _))
    obtain ⟨-, hrange, -⟩ := ofNative_sound (distinctKeys_slot 300) slotSchema
    obtain ⟨fault, hfault, hkind⟩ := hrange _ _ hmeets ⟨300, _, rfl, rfl, by decide⟩
    exact ⟨fault, hfault, hkind fun _ _ => orderly_slot⟩

end Nbt

end MinecraftWire
