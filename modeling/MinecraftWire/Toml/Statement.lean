import MinecraftWire.Toml.Scalar

/-! The statements of a TOML document: headers of tables, and keys with their values. -/

namespace MinecraftWire.Toml

inductive Statement where
  | table (path : List String)
  /-- One more of the tables of a name. -/
  | tables (path : List String)
  | pair (path : List String) (key : String) (v : Value)

/-- The most parts of a key, and the most arrays and tables in braces around a value. -/
def maxDepth : Nat := 79

/-! ### Blanks, comments and line ends -/

def skipBlanks (cs : List Char) : List Char :=
  cs.dropWhile isBlank

/-- What follows the end of a line; blanks and a comment may stand before it. -/
def lineEnd? (comment : Bool) : List Char → Option (List Char)
  | [] => some []
  | '\n' :: cs => some cs
  | '\r' :: '\n' :: cs => some cs
  | c :: cs =>
    if comment then (if isControl c then none else lineEnd? true cs)
    else if c = '#' then lineEnd? true cs
    else if isBlank c then lineEnd? false cs
    else none

/-- Without the blanks, line breaks and comments at its front. -/
def skipLines? (comment : Bool) : List Char → Option (List Char)
  | [] => if comment then none else some []
  | '\n' :: cs => skipLines? false cs
  | '\r' :: '\n' :: cs => skipLines? false cs
  | c :: cs =>
    if comment then (if isControl c then none else skipLines? true cs)
    else if c = '#' then skipLines? true cs
    else if isBlank c then skipLines? false cs
    else some (c :: cs)

theorem length_skipBlanks_le (cs : List Char) : (skipBlanks cs).length ≤ cs.length :=
  (List.dropWhile_sublist _).length_le

theorem length_of_lineEnd? {comment : Bool} {cs rest : List Char}
    (h : lineEnd? comment cs = some rest) : rest.length ≤ cs.length - 1 := by
  fun_induction lineEnd? comment cs <;> simp_all <;> omega

theorem length_of_skipLines? {comment : Bool} {cs rest : List Char}
    (h : skipLines? comment cs = some rest) : rest.length ≤ cs.length := by
  fun_induction skipLines? comment cs <;> simp_all <;> omega

/-! ### Keys -/

def isKeyChar (c : Char) : Bool :=
  c.isAlphanum || c == '_' || c == '-'

/-- A key without dots at the front of a text, bare or a string, and what follows. -/
def simpleKey? (cs : List Char) : Option (String × List Char) :=
  match cs.takeWhile isKeyChar with
  | [] => string? cs
  | c :: key => some (String.ofList (c :: key), cs.dropWhile isKeyChar)

theorem length_of_simpleKey? {cs rest : List Char} {key : String}
    (h : simpleKey? cs = some (key, rest)) : rest.length < cs.length := by
  unfold simpleKey? at h
  split at h
  · exact length_of_string? h
  · rename_i hc
    have hl := congrArg List.length (List.takeWhile_append_dropWhile (p := isKeyChar) (l := cs))
    simp only [Option.some.injEq, Prod.mk.injEq] at h
    simp only [hc, h.2, List.length_append, List.length_cons] at hl
    omega

/-- The parts of a key, blanks around them allowed, and what follows. -/
def parts? (cs : List Char) : Option (List String × List Char) :=
  match _h : simpleKey? (skipBlanks cs) with
  | none => none
  | some (key, rest) =>
    match _hd : skipBlanks rest with
    | '.' :: more => (parts? more).map fun (keys, rest) => (key :: keys, rest)
    | rest => some ([key], rest)
termination_by cs.length
decreasing_by
  have := length_of_simpleKey? _h
  have := length_skipBlanks_le cs
  have := length_skipBlanks_le rest
  rw [_hd] at this
  simp only [List.length_cons] at this
  omega

theorem length_of_parts? {cs rest : List Char} {keys : List String}
    (h : parts? cs = some (keys, rest)) : rest.length < cs.length := by
  fun_induction parts? cs generalizing keys rest with
  | case1 => simp at h
  | case2 cs key rest' hk more hm ih =>
    simp only [Option.map_eq_some_iff, Prod.mk.injEq, Prod.exists] at h
    obtain ⟨_, _, h, -, rfl⟩ := h
    have := ih h
    have := length_of_simpleKey? hk
    have := length_skipBlanks_le cs
    have := length_skipBlanks_le rest'
    rw [hm] at this
    simp only [List.length_cons] at this
    omega
  | case3 cs key rest' hk _ =>
    simp only [Option.some.injEq, Prod.mk.injEq] at h
    rw [← h.2]
    have := length_of_simpleKey? hk
    have := length_skipBlanks_le cs
    have := length_skipBlanks_le rest'
    omega

/-- A key as its path and its last part. -/
def key? (cs : List Char) : Option ((List String × String) × List Char) :=
  match parts? cs with
  | some (keys, rest) =>
    if keys.length ≤ maxDepth then some ((keys.dropLast, keys.getLastD ""), rest) else none
  | none => none

theorem length_of_key? {cs rest : List Char} {key : List String × String}
    (h : key? cs = some (key, rest)) : rest.length < cs.length := by
  unfold key? at h
  split at h
  · rename_i hk
    split at h
    · simp only [Option.some.injEq, Prod.mk.injEq] at h
      rw [← h.2]
      exact length_of_parts? hk
    · simp at h
  · simp at h

/-! ### Values -/

/-- A way to read something at the front of a text; what follows it is shorter. -/
structure Form (α : Type) where
  read : List Char → Option (α × List Char)
  shorter : ∀ {cs a rest}, read cs = some (a, rest) → rest.length < cs.length

namespace Form

/-- The elements of an array up to its closing bracket; a comma may stand behind the last. `done`
holds those before, last first. -/
def items? (form : Form Value) (done : List Value) (cs : List Char) :
    Option (Value × List Char) :=
  match _hs : skipLines? false cs with
  | none => none
  | some (']' :: rest) => some (.array done.reverse, rest)
  | some cs =>
    match _h : form.read cs with
    | none => none
    | some (v, rest) =>
      match _hr : skipLines? false rest with
      | some (',' :: rest) => items? form (v :: done) rest
      | some (']' :: rest) => some (.array (v :: done).reverse, rest)
      | _ => none
termination_by cs.length
decreasing_by
  have := form.shorter _h
  have := length_of_skipLines? _hs
  have := length_of_skipLines? _hr
  simp only [List.length_cons] at this
  omega

theorem length_of_items? {form : Form Value} {done : List Value} {cs rest : List Char} {v : Value}
    (h : form.items? done cs = some (v, rest)) : rest.length < cs.length := by
  fun_induction items? form done cs with
  | case1 => simp at h
  | case2 _ cs rest' hs =>
    have := length_of_skipLines? hs
    simp only [Option.some.injEq, Prod.mk.injEq] at h
    rw [← h.2]
    simp only [List.length_cons] at this
    omega
  | case3 => simp at h
  | case4 _ cs cs' _ hs v' rest' hv more hr ih =>
    have := ih h
    have := form.shorter hv
    have := length_of_skipLines? hs
    have := length_of_skipLines? hr
    simp only [List.length_cons] at this
    omega
  | case5 _ cs cs' _ hs v' rest' hv more hr =>
    simp only [Option.some.injEq, Prod.mk.injEq] at h
    rw [← h.2]
    have := form.shorter hv
    have := length_of_skipLines? hs
    have := length_of_skipLines? hr
    simp only [List.length_cons] at this
    omega
  | case6 => simp at h

/-- A key, an equals sign and a value. -/
def pair? (form : Form Value) (cs : List Char) :
    Option ((List String × String × Value) × List Char) :=
  match key? cs with
  | some ((path, key), '=' :: rest) =>
    match form.read (skipBlanks rest) with
    | some (v, rest) => some ((path, key, v), rest)
    | none => none
  | _ => none

theorem length_of_pair? {form : Form Value} {cs rest : List Char}
    {p : List String × String × Value} (h : form.pair? cs = some (p, rest)) :
    rest.length < cs.length := by
  unfold pair? at h
  split at h
  · rename_i rest' hk
    split at h
    · rename_i hv
      simp only [Option.some.injEq, Prod.mk.injEq] at h
      rw [← h.2]
      have := length_of_key? hk
      have := form.shorter hv
      have := length_skipBlanks_le rest'
      simp only [List.length_cons] at *
      omega
    · simp at h
  · simp at h

/-- The pairs of a table in braces up to its closing brace, at least one. -/
def pairs? (form : Form Value) (entries : Entries) (cs : List Char) : Option (Value × List Char) :=
  match _h : form.pair? cs with
  | none => none
  | some ((path, key, v), rest) =>
    match Entries.put path key v .inline entries with
    | none => none
    | some entries =>
      match _hr : skipBlanks rest with
      | ',' :: more => pairs? form entries more
      | '\x7d' :: more => some (.table .inline entries, more)
      | _ => none
termination_by cs.length
decreasing_by
  have := length_of_pair? _h
  have := length_skipBlanks_le rest
  rw [_hr] at this
  simp only [List.length_cons] at this
  omega

theorem length_of_pairs? {form : Form Value} {entries : Entries} {cs rest : List Char} {v : Value}
    (h : form.pairs? entries cs = some (v, rest)) : rest.length < cs.length := by
  fun_induction pairs? form entries cs with
  | case1 => simp at h
  | case2 => simp at h
  | case3 _ cs _ _ _ rest' hp _ _ more hr ih =>
    have := ih h
    have := length_of_pair? hp
    have := length_skipBlanks_le rest'
    rw [hr] at this
    simp only [List.length_cons] at this
    omega
  | case4 _ cs _ _ _ rest' hp _ _ more hr =>
    simp only [Option.some.injEq, Prod.mk.injEq] at h
    rw [← h.2]
    have := length_of_pair? hp
    have := length_skipBlanks_le rest'
    rw [hr] at this
    simp only [List.length_cons] at this
    omega
  | case5 => simp at h

def braces? (form : Form Value) (cs : List Char) : Option (Value × List Char) :=
  match skipBlanks cs with
  | '\x7d' :: rest => some (.table .inline [], rest)
  | _ => form.pairs? [] cs

theorem length_of_braces? {form : Form Value} {cs rest : List Char} {v : Value}
    (h : form.braces? cs = some (v, rest)) : rest.length < cs.length := by
  unfold braces? at h
  split at h
  · rename_i hr
    simp only [Option.some.injEq, Prod.mk.injEq] at h
    rw [← h.2]
    have := length_skipBlanks_le cs
    rw [hr] at this
    exact this
  · exact length_of_pairs? h

end Form

/-- The string or scalar at the front of a text, and what follows it. -/
def leaf? (cs : List Char) : Option (Value × List Char) :=
  match anyString? cs with
  | some (s, rest) => some (.string s, rest)
  | none => scalar? cs

theorem length_word (cs : List Char) : (word cs).1.length + (word cs).2.length = cs.length := by
  have := congrArg List.length (List.takeWhile_append_dropWhile (p := isWordChar) (l := cs))
  rwa [List.length_append] at this

theorem ne_nil_of_ofWord? {cs : List Char} {v : Value} (h : ofWord? cs = some v) : cs ≠ [] := by
  rintro rfl
  rw [show ofWord? [] = none by rfl] at h
  contradiction

theorem length_of_scalar? {cs rest : List Char} {v : Value} (h : scalar? cs = some (v, rest)) :
    rest.length < cs.length := by
  have hl := length_word cs
  unfold scalar? at h
  split at h
  · rename_i w more hw
    have hm := length_word more
    rw [hw] at hl
    simp only [List.length_cons] at hl
    split at h
    · simp only [Option.some.injEq, Prod.mk.injEq] at h
      rw [← h.2]
      omega
    · simp only [Option.map_eq_some_iff, Prod.mk.injEq] at h
      obtain ⟨_, hv, -, rfl⟩ := h
      have := List.length_pos_iff.mpr (ne_nil_of_ofWord? hv)
      simp only [List.length_cons]
      omega
  · rename_i w more _ hw
    rw [hw] at hl
    simp only [Option.map_eq_some_iff, Prod.mk.injEq] at h
    obtain ⟨_, hv, -, rfl⟩ := h
    have := List.length_pos_iff.mpr (ne_nil_of_ofWord? hv)
    simp only at hl
    omega

theorem length_of_leaf? {cs rest : List Char} {v : Value} (h : leaf? cs = some (v, rest)) :
    rest.length < cs.length := by
  unfold leaf? at h
  split at h
  · rename_i hs
    simp only [Option.some.injEq, Prod.mk.injEq] at h
    rw [← h.2]
    exact length_of_anyString? hs
  · exact length_of_scalar? h

/-- A value within which at most so many arrays and tables in braces stand in one another. -/
def value : (depth : Nat) → Form Value
  | 0 => ⟨leaf?, length_of_leaf?⟩
  | depth + 1 =>
    { read := fun
        | '[' :: cs => (value depth).items? [] cs
        | '\x7b' :: cs => (value depth).braces? cs
        | cs => leaf? cs
      shorter := by
        intro cs v rest h
        split at h
        · exact Nat.lt_succ_of_lt (Form.length_of_items? h)
        · exact Nat.lt_succ_of_lt (Form.length_of_braces? h)
        · exact length_of_leaf? h }

/-! ### Statements -/

/-- What follows a closing bracket and the end of its line. -/
def closed? (brackets : Nat) : List Char → Option (List Char)
  | ']' :: cs => if brackets ≤ 1 then lineEnd? false cs else closed? (brackets - 1) cs
  | _ => none

/-- The statement at the front of a text, with its line end, and what follows. -/
def statement? : List Char → Option (Statement × List Char)
  | '[' :: '[' :: cs =>
    match key? cs with
    | some ((path, key), rest) => (closed? 2 rest).map (.tables (path ++ [key]), ·)
    | none => none
  | '[' :: cs =>
    match key? cs with
    | some ((path, key), rest) => (closed? 1 rest).map (.table (path ++ [key]), ·)
    | none => none
  | cs =>
    match (value maxDepth).pair? cs with
    | some ((path, key, v), rest) => (lineEnd? false rest).map (.pair path key v, ·)
    | none => none

theorem length_of_closed? {brackets : Nat} {cs rest : List Char}
    (h : closed? brackets cs = some rest) : rest.length ≤ cs.length := by
  fun_induction closed? brackets cs with
  | case1 _ cs =>
    have := length_of_lineEnd? h
    simp only [List.length_cons]
    omega
  | case2 _ cs _ ih =>
    have := ih h
    simp only [List.length_cons]
    omega
  | case3 => simp at h

theorem length_of_statement? {cs rest : List Char} {s : Statement}
    (h : statement? cs = some (s, rest)) : rest.length < cs.length := by
  unfold statement? at h
  split at h <;> split at h <;> try simp only [reduceCtorEq] at h
  all_goals
    rename_i hk
    simp only [Option.map_eq_some_iff, Prod.mk.injEq] at h
    obtain ⟨_, hc, -, rfl⟩ := h
  · have := length_of_closed? hc
    have := length_of_key? hk
    simp only [List.length_cons]
    omega
  · have := length_of_closed? hc
    have := length_of_key? hk
    simp only [List.length_cons]
    omega
  · have := length_of_lineEnd? hc
    have := Form.length_of_pair? hk
    omega

/-- The statements of a whole text. Blank lines and lines with a comment only are none. -/
def statements? (cs : List Char) : Option (List Statement) :=
  match cs with
  | [] => some []
  | c :: cs =>
    match _h : lineEnd? false (c :: cs) with
    | some rest => statements? rest
    | none =>
      match _h : statement? (skipBlanks (c :: cs)) with
      | some (s, rest) => (statements? rest).map (s :: ·)
      | none => none
termination_by cs.length
decreasing_by
  · have := length_of_lineEnd? _h
    simp only [List.length_cons] at *
    omega
  · have := length_of_statement? _h
    have := length_skipBlanks_le (c :: cs)
    omega

end MinecraftWire.Toml
