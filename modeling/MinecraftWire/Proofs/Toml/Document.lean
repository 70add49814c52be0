import MinecraftWire.Proofs.Lookup
import MinecraftWire.Proofs.Toml.Quoted
import MinecraftWire.Proofs.Toml.Scalar
import MinecraftWire.Toml.Document

/-! Documents in TOML are read back: tables under headers, with a line for each pair of a bare key and
a value that stands on its line alone. Each line is one statement, and the statements build the tables
in their order, as no name and no key comes twice. -/

namespace MinecraftWire.Toml

theorem not_blank {c : Char} (hspace : c ≠ ' ') (htab : c ≠ '\t') : isBlank c = false := by
  simp [isBlank, hspace, htab]

/-! ### Values -/

/-- Whether a text that ends its line stands for a value, which is written without brackets and
braces. -/
structure Denotes (text : List Char) (v : Value) : Prop where
  opens : ∃ c tail, text = c :: tail ∧ c ≠ '[' ∧ c ≠ '\x7b' ∧ isBlank c = false
  leaf? (rest : List Char) : leaf? (text ++ '\n' :: rest) = some (v, '\n' :: rest)

theorem Denotes.read {text : List Char} {v : Value} (h : Denotes text v) (depth : Nat)
    (rest : List Char) :
    (value depth).read (skipBlanks (' ' :: text ++ '\n' :: rest)) = some (v, '\n' :: rest) := by
  obtain ⟨c, tail, rfl, hbracket, hbrace, hblank⟩ := h.opens
  have hskip : skipBlanks (' ' :: (c :: tail) ++ '\n' :: rest) = c :: tail ++ '\n' :: rest := by
    simp [skipBlanks, hblank, show isBlank ' ' = true from rfl]
  rw [hskip, ← h.leaf? rest]
  cases depth with
  | zero => rfl
  | succ depth =>
    simp only [value, List.cons_append]
    split
    · exact absurd (List.cons.inj ‹_›).1 hbracket
    · exact absurd (List.cons.inj ‹_›).1 hbrace
    · rfl

theorem denotes_quote (s : String) : Denotes (quote s).toList (.string s) where
  opens := by
    rw [quote, String.toList_ofList, quoted]
    split
    · exact ⟨'"', _, rfl, by decide⟩
    · exact ⟨'\'', _, rfl, by decide⟩
    · exact ⟨'"', _, rfl, by decide⟩
    · exact ⟨'\'', _, rfl, by decide⟩
  leaf? rest := by
    rw [quote, String.toList_ofList, leaf?, anyString?_quoted s.toList (by simp) (by simp),
      String.ofList_toList]

theorem denotes_word {w : List Char} {v : Value} (hw : ∀ c ∈ w, isWordChar c)
    (hv : ofWord? w = some v) : Denotes w v := by
  obtain ⟨c, tail, rfl⟩ := List.exists_cons_of_ne_nil (ne_nil_of_ofWord? hv)
  have hc := hw c List.mem_cons_self
  have hne : ∀ d, isWordChar d = false → c ≠ d :=
    fun d hd => ne_of_apply_ne isWordChar (by simp [hc, hd])
  refine ⟨⟨c, tail, rfl, hne _ rfl, hne _ rfl, not_blank (hne _ rfl) (hne _ rfl)⟩, fun rest => ?_⟩
  have hstring : anyString? (c :: tail ++ '\n' :: rest) = none := by
    rw [List.cons_append, anyString?, string?]
    · exact fun _ h => hne '"' rfl (List.cons.inj h).1
    · exact fun _ h => hne '\'' rfl (List.cons.inj h).1
    · exact fun _ h => hne '"' rfl (List.cons.inj h).1
    · exact fun _ h => hne '\'' rfl (List.cons.inj h).1
  rw [leaf?, hstring]
  exact scalar?_word hw hv rest

theorem denotes_integer {i : Int} (hlower : -2 ^ 63 ≤ i) (hupper : i < 2 ^ 63) :
    Denotes (toString i).toList (.integer i) :=
  denotes_word (fun _ hc => (isWordChar_of_mem_toString hc).1) (ofWord?_toString hlower hupper)

theorem denotes_boolean (b : Bool) : Denotes (toString b).toList (.boolean b) :=
  denotes_word (List.all_eq_true.mp (by cases b <;> decide)) (ofWord?_boolean b)

/-! ### Keys -/

/-- Whether a key may stand without quotes. -/
def IsBare (key : String) : Prop :=
  key.toList ≠ [] ∧ ∀ c ∈ key.toList, isKeyChar c

instance (key : String) : Decidable (IsBare key) :=
  decidable_of_iff (key.toList ≠ [] ∧ key.toList.all isKeyChar) (and_congr_right' List.all_eq_true)

section Keys

variable {key : String} {c next : Char} {more rest : List Char}

theorem IsBare.exists_cons (h : IsBare key) :
    ∃ c cs, key.toList = c :: cs ∧ ∀ d, isKeyChar d = false → c ≠ d := by
  obtain ⟨c, cs, hcs⟩ := List.exists_cons_of_ne_nil h.1
  have hc := h.2 c (hcs ▸ List.mem_cons_self)
  exact ⟨c, cs, hcs, fun d hd => ne_of_apply_ne isKeyChar (by simp [hc, hd])⟩

theorem simpleKey?_bare (h : IsBare key) (hc : isKeyChar c = false) :
    simpleKey? (key.toList ++ c :: more) = some (key, c :: more) := by
  have htake : (key.toList ++ c :: more).takeWhile isKeyChar = key.toList := by
    rw [List.takeWhile_append_of_pos h.2, List.takeWhile_cons_of_neg (by simp [hc]),
      List.append_nil]
  have hdrop : (key.toList ++ c :: more).dropWhile isKeyChar = c :: more := by
    rw [List.dropWhile_append_of_pos h.2, List.dropWhile_cons_of_neg (by simp [hc])]
  rw [simpleKey?, htake, hdrop]
  split
  · exact absurd ‹_› h.1
  · rename_i hcs
    rw [← hcs, String.ofList_toList]

/-- Blanks may stand behind a key. -/
theorem key?_bare (h : IsBare key) (hc : isKeyChar c = false)
    (hskip : skipBlanks (c :: more) = next :: rest) (hnext : next ≠ '.') :
    key? (key.toList ++ c :: more) = some (([], key), next :: rest) := by
  have hparts : parts? (key.toList ++ c :: more) = some ([key], next :: rest) := by
    obtain ⟨d, ds, hds, hd⟩ := h.exists_cons
    have hfront : skipBlanks (key.toList ++ c :: more) = key.toList ++ c :: more := by
      rw [hds, List.cons_append, skipBlanks, List.dropWhile_cons_of_neg]
      simp [not_blank (hd _ rfl) (hd _ rfl)]
    rw [parts?]
    split
    · rename_i hkey
      rw [hfront, simpleKey?_bare h hc] at hkey
      contradiction
    · rename_i hkey
      rw [hfront, simpleKey?_bare h hc] at hkey
      obtain ⟨rfl, rfl⟩ := Prod.mk.inj (Option.some.inj hkey)
      split
      · rename_i hdot
        rw [hskip] at hdot
        exact absurd (List.cons.inj hdot).1 hnext
      · rw [hskip]
  rw [key?, hparts]
  rfl

end Keys

/-! ### Statements -/

/-- A pair on a line of its own. -/
structure Line where
  key : String
  text : String
  value : Value
  bare : IsBare key
  denotes : Denotes text.toList value

def Line.chars (l : Line) : List Char :=
  l.key.toList ++ ' ' :: '=' :: ' ' :: l.text.toList ++ ['\n']

def Line.entry (l : Line) : String × Value :=
  (l.key, l.value)

theorem Line.map_fst_entry (lines : List Line) :
    (lines.map Line.entry).map Prod.fst = lines.map Line.key :=
  List.map_map

/-- A header and the lines under it. -/
structure Section where
  name : String
  lines : List Line
  bare : IsBare name
  distinct : (lines.map Line.key).Nodup

def Section.chars (s : Section) : List Char :=
  '[' :: s.name.toList ++ ']' :: '\n' :: s.lines.flatMap Line.chars

def Section.entry (s : Section) : String × Value :=
  (s.name, .table .header (s.lines.map Line.entry))

theorem Section.map_fst_entry (sections : List Section) :
    (sections.map Section.entry).map Prod.fst = sections.map Section.name :=
  List.map_map

def Line.statement (l : Line) : Statement :=
  .pair [] l.key l.value

def Section.statements (s : Section) : List Statement :=
  .table [s.name] :: s.lines.map Line.statement

section Statements

variable {rest : List Char}

theorem statements?_newline : statements? ('\n' :: rest) = statements? rest := by
  rw [statements?]
  rfl

/-- A line that is neither blank nor a comment has a statement. -/
theorem statements?_of_statement? {text : List Char} {s : Statement}
    (hopens : ∃ c cs, text = c :: cs ∧ c ≠ '\n' ∧ c ≠ '\r' ∧ c ≠ '#' ∧ isBlank c = false)
    (h : statement? text = some (s, rest)) :
    statements? text = (statements? rest).map (s :: ·) := by
  obtain ⟨c, cs, rfl, hnewline, hreturn, hcomment, hblank⟩ := hopens
  have hend : lineEnd? false (c :: cs) = none := by
    rw [lineEnd?, if_neg Bool.false_ne_true, if_neg hcomment, hblank, if_neg Bool.false_ne_true]
    · exact hnewline
    · exact fun _ h => absurd h hreturn
  have hskip : skipBlanks (c :: cs) = c :: cs :=
    List.dropWhile_cons_of_neg (by simp [hblank])
  rw [statements?]
  split
  · rename_i heq
    rw [hend] at heq
    contradiction
  · split
    · rename_i heq
      rw [hskip, h] at heq
      obtain ⟨rfl, rfl⟩ := Prod.mk.inj (Option.some.inj heq)
      rfl
    · rename_i heq
      rw [hskip, h] at heq
      contradiction

theorem statement?_line (l : Line) : statement? (l.chars ++ rest) = some (l.statement, rest) := by
  obtain ⟨key, text, v, hbare, hdenotes⟩ := l
  have hchars : Line.chars ⟨key, text, v, hbare, hdenotes⟩ ++ rest =
      key.toList ++ ' ' :: '=' :: (' ' :: text.toList ++ '\n' :: rest) := by
    simp [Line.chars]
  have hkey : key? (key.toList ++ ' ' :: '=' :: (' ' :: text.toList ++ '\n' :: rest)) =
      some (([], key), '=' :: (' ' :: text.toList ++ '\n' :: rest)) :=
    key?_bare hbare rfl rfl (by decide)
  have hpair : (Toml.value maxDepth).pair?
      (key.toList ++ ' ' :: '=' :: (' ' :: text.toList ++ '\n' :: rest)) =
      some (([], key, v), '\n' :: rest) := by
    rw [Form.pair?, hkey]
    simp only [hdenotes.read]
  obtain ⟨c, cs, hcs, hc⟩ := hbare.exists_cons
  have hbracket := hc '[' rfl
  rw [hchars, statement?, hpair]
  · rfl
  · exact fun _ h => hbracket (List.cons.inj (hcs ▸ h)).1
  · exact fun _ h => hbracket (List.cons.inj (hcs ▸ h)).1

theorem statement?_header {name : String} (h : IsBare name) :
    statement? ('[' :: (name.toList ++ ']' :: '\n' :: rest)) = some (.table [name], rest) := by
  have hkey : key? (name.toList ++ ']' :: '\n' :: rest) = some (([], name), ']' :: '\n' :: rest) :=
    key?_bare h rfl rfl (by decide)
  obtain ⟨c, cs, hcs, hc⟩ := h.exists_cons
  have hbracket := hc '[' rfl
  rw [statement?, hkey]
  · rfl
  · exact fun _ h => hbracket (List.cons.inj (hcs ▸ h)).1

theorem statements?_lines (lines : List Line) :
    statements? (lines.flatMap Line.chars ++ rest) =
      (statements? rest).map (lines.map Line.statement ++ ·) := by
  induction lines with
  | nil => simp
  | cons l lines ih =>
    obtain ⟨c, cs, hcs, hc⟩ := l.bare.exists_cons
    have hopens : l.chars ++ (lines.flatMap Line.chars ++ rest) =
        c :: (cs ++ ' ' :: '=' :: ' ' :: (l.text.toList ++ '\n' :: (lines.flatMap Line.chars ++ rest))) := by
      simp [Line.chars, hcs]
    have hblank := not_blank (hc _ rfl) (hc _ rfl)
    rw [List.flatMap_cons, List.append_assoc, statements?_of_statement?
      ⟨c, _, hopens, hc _ rfl, hc _ rfl, hc _ rfl, hblank⟩ (statement?_line l), ih, Option.map_map]
    rfl

theorem statements?_section (s : Section) :
    statements? (s.chars ++ rest) = (statements? rest).map (s.statements ++ ·) := by
  have hchars : s.chars ++ rest =
      '[' :: (s.name.toList ++ ']' :: '\n' :: (s.lines.flatMap Line.chars ++ rest)) := by
    simp [Section.chars]
  rw [hchars, statements?_of_statement? ⟨'[', _, rfl, by decide⟩ (statement?_header s.bare),
    statements?_lines, Option.map_map]
  rfl

/-- Sections with a blank line between them. -/
theorem statements?_sections (sections : List Section) :
    statements? (['\n'].intercalate (sections.map Section.chars)) =
      some (sections.flatMap Section.statements) := by
  induction sections with
  | nil => simp [statements?]
  | cons s sections ih =>
    rcases sections with _ | ⟨s', sections⟩
    · have h : statements? (s.chars ++ []) = _ := statements?_section s
      simpa [statements?] using h
    · rw [List.map_cons, List.map_cons, List.intercalate_cons_cons, List.append_assoc,
        statements?_section, List.singleton_append, statements?_newline, ← List.map_cons, ih]
      rfl

end Statements

/-! ### Tables -/

theorem Entries.set_append {root : Entries} {name : String} (h : root.lookup name = none)
    (old v : Value) : Entries.set name v (root ++ [(name, old)]) = root ++ [(name, v)] := by
  induction root with
  | nil => simp [Entries.set]
  | cons e root ih =>
    obtain ⟨key, w⟩ := e
    rw [List.lookup_cons] at h
    split at h
    · contradiction
    · have hkey : key ≠ name := by
        rintro rfl
        simp at *
      rw [List.cons_append, Entries.set, if_neg hkey, ih h]
      rfl

namespace Builder

variable {root entries : Entries} {name key : String}

theorem step_header (hname : root.lookup name = none) (here : List String) :
    step ⟨root, here⟩ (.table [name]) = some ⟨root ++ [(name, .table .header [])], [name]⟩ := by
  simp [step, change, Entries.change, openTable, hname]

theorem step_pair (hname : root.lookup name = none) (hkey : entries.lookup key = none) (v : Value) :
    step ⟨root ++ [(name, .table .header entries)], [name]⟩ (.pair [] key v) =
      some ⟨root ++ [(name, .table .header (entries ++ [(key, v)]))], [name]⟩ := by
  have hlookup : (root ++ [(name, Value.table .header entries)]).lookup name =
      some (.table .header entries) := by
    rw [List.lookup_append, hname, List.lookup_cons_self]
    rfl
  simp [step, change, Entries.change, Entries.put, Entries.add, hlookup, hkey,
    Entries.set_append hname]

/-- Lines go into the table of the last header, one behind the other. -/
theorem foldlM_lines (hname : root.lookup name = none) (done : List Line) {lines : List Line}
    (h : ((done ++ lines).map Line.key).Nodup) :
    (lines.map Line.statement).foldlM step
        ⟨root ++ [(name, .table .header (done.map Line.entry))], [name]⟩ =
      some ⟨root ++ [(name, .table .header ((done ++ lines).map Line.entry))], [name]⟩ := by
  induction lines generalizing done with
  | nil => simp
  | cons l lines ih =>
    have hkey : (done.map Line.entry).lookup l.key = none := by
      rw [List.map_append, List.map_cons, ← Line.map_fst_entry done] at h
      exact lookup_eq_none h
    have hdone : done.map Line.entry ++ [(l.key, l.value)] = (done ++ [l]).map Line.entry := by
      rw [List.map_append]
      rfl
    have happend : done ++ l :: lines = done ++ [l] ++ lines := by simp
    rw [happend] at h ⊢
    rw [List.map_cons, List.foldlM_cons, Line.statement, step_pair hname hkey, hdone]
    exact ih _ h

/-- Sections become tables, one behind the other. -/
theorem foldlM_sections (done : List Section) {sections : List Section} (here : List String)
    (h : ((done ++ sections).map Section.name).Nodup) :
    ((sections.flatMap Section.statements).foldlM step ⟨done.map Section.entry, here⟩).map (·.root) =
      some ((done ++ sections).map Section.entry) := by
  induction sections generalizing done here with
  | nil => simp
  | cons s sections ih =>
    have hname : (done.map Section.entry).lookup s.name = none := by
      rw [List.map_append, List.map_cons, ← Section.map_fst_entry done] at h
      exact lookup_eq_none h
    have hlines := foldlM_lines hname [] s.distinct
    have hdone : done.map Section.entry ++ [s.entry] = (done ++ [s]).map Section.entry := by
      rw [List.map_append]
      rfl
    have happend : done ++ s :: sections = done ++ [s] ++ sections := by simp
    rw [happend] at h ⊢
    rw [List.flatMap_cons, Section.statements, List.cons_append, List.foldlM_cons,
      step_header hname, Option.bind_eq_bind, Option.bind_some, List.foldlM_append]
    have hs : (s.name, Value.table .header (s.lines.map Line.entry)) = s.entry := rfl
    rw [List.map_nil, List.nil_append, hs, hdone] at hlines
    rw [hlines]
    exact ih _ _ h

end Builder

/-- A text of sections is the table of their tables. -/
theorem parse?_sections {sections : List Section} (h : (sections.map Section.name).Nodup) :
    parse? (String.ofList (['\n'].intercalate (sections.map Section.chars))) =
      some (sections.map Section.entry) := by
  have hmark : withoutMark (['\n'].intercalate (sections.map Section.chars)) =
      ['\n'].intercalate (sections.map Section.chars) := by
    rcases sections with _ | ⟨s, _ | ⟨s', sections⟩⟩ <;> rfl
  rw [parse?, String.toList_ofList, hmark, statements?_sections]
  exact Builder.foldlM_sections [] [] h

end MinecraftWire.Toml
