import MinecraftWire.Proofs.Nbt.Container
import MinecraftWire.Proofs.Nbt.RoundTrip

/-! Trees as the operations on lists and compounds put them together, in any order and at any depth.
Each operation keeps the rules for containers, but for one: what takes the place of a child is not
looked at, and may be an end mark. A tree built without that is written and read back. A compound
with an end mark for a child is written too, but is read only as far as the end mark. -/

namespace MinecraftWire.Nbt

open Tag

/-! ### Building -/

mutual

/-- The trees that can be built, where end marks may take the place of children if `ends`. What is
done to a child that stays where it is comes down to a replacement too. -/
inductive Tag.Built (ends : Prop) : Tag → Prop where
  | leaf {t : Tag} (hlist : t.kind ≠ .list) (hcompound : t.kind ≠ .compound) : Tag.Built ends t
  | list {l : TagList} (hl : TagList.Built ends l) : Tag.Built ends l.toTag
  | compound {c : Compound} (hc : Compound.Built ends c) : Tag.Built ends c.toTag

inductive TagList.Built (ends : Prop) : TagList → Prop where
  | empty : TagList.Built ends .empty
  | ofKind (kind : TagKind) : TagList.Built ends (.ofKind kind)
  | push {l l' : TagList} {t : Tag} (hl : TagList.Built ends l) (ht : Tag.Built ends t)
      (h : l.push t = .ok l') : TagList.Built ends l'

inductive Compound.Built (ends : Prop) : Compound → Prop where
  | empty : Compound.Built ends .empty
  | insert {c c' : Compound} {name : String} {t : Tag} (hc : Compound.Built ends c)
      (ht : Tag.Built ends t) (h : c.insert name t = .ok c') : Compound.Built ends c'
  | remove {c : Compound} (hc : Compound.Built ends c) (name : String) :
      Compound.Built ends (c.remove name).2
  | replace {c : Compound} {t : Tag} (hc : Compound.Built ends c) (name : String)
      (ht : Tag.Built ends t) (hend : t.kind = .endMark → ends) :
      Compound.Built ends (c.replace name t).2

end

variable {ends : Prop}

/-! ### What else comes down to the operations -/

theorem TagList.Built.pushAll {l l' : TagList} {ts : List Tag} (hl : l.Built ends)
    (hts : ∀ t ∈ ts, t.Built ends) (h : l.pushAll ts = .ok l') : l'.Built ends := by
  induction ts generalizing l with
  | nil =>
    obtain rfl := Except.ok.inj h
    exact hl
  | cons t ts ih =>
    rw [List.forall_mem_cons] at hts
    change (l.push t >>= fun l => TagList.pushAll ts l) = .ok l' at h
    rcases hpush : l.push t with fault | pushed
    · rw [hpush] at h
      contradiction
    · rw [hpush] at h
      exact ih (.push hl hts.1 hpush) hts.2 h

theorem TagList.Built.ofTags {l : TagList} {ts : List Tag} (hts : ∀ t ∈ ts, t.Built ends)
    (h : TagList.ofTags ts = .ok l) : l.Built ends :=
  TagList.Built.empty.pushAll hts h

/-- A compound of one child. -/
theorem Compound.Built.single {name : String} {t : Tag} (hname : name ≠ "")
    (hend : t.kind ≠ .endMark) (ht : t.Built ends) :
    (Compound.mk #[(name, t)] (({} : Std.HashMap String Nat).insert name 0)).Built ends := by
  refine .insert .empty ht (Compound.insert_eq_ok_iff.mpr ⟨hname, hend, ?_, rfl⟩)
  simp [Compound.contains, Compound.empty]

/-- The elements of a list were built. -/
theorem TagList.Built.item {l : TagList} : l.Built ends → ∀ t ∈ l.items, t.Built ends
  | .empty, _, ht => absurd ht (Array.not_mem_empty _)
  | .ofKind _, _, ht => absurd ht (Array.not_mem_empty _)
  | .push hl ht h, u, hu => by
    obtain ⟨-, -, rfl⟩ := TagList.push_eq_ok_iff.mp h
    rcases Array.mem_push.mp hu with hu | rfl
    · exact hl.item u hu
    · exact ht

/-- The children of a compound were built. -/
theorem Compound.Built.entry {c : Compound} :
    c.Built ends → ∀ e ∈ c.entries.toList, e.2.Built ends
  | .empty, _, he => absurd he List.not_mem_nil
  | .insert hc ht h, e, he => by
    obtain ⟨-, -, -, rfl⟩ := Compound.insert_eq_ok_iff.mp h
    rw [Array.toList_push, List.mem_append, List.mem_singleton] at he
    rcases he with he | rfl
    · exact hc.entry e he
    · exact ht
  | .remove hc name, e, he => hc.entry e ((Compound.entries_remove_sublist _ name).mem he)
  | .replace hc name ht _, e, he => by
    rcases Compound.mem_entries_replace he with he | ⟨-, rfl⟩
    · exact hc.entry e he
    · exact ht

/-- Whatever is taken or copied out of a tree was built. -/
theorem Tag.Built.child {t u : Tag} (h : t.Built ends) (hu : u ∈ t.children) : u.Built ends := by
  cases h with
  | leaf hlist hcompound => cases t <;> contradiction
  | list hl => exact hl.item u (Array.mem_toList_iff.mp hu)
  | compound hc =>
    obtain ⟨e, he, rfl⟩ := List.mem_map.mp hu
    exact hc.entry e he

/-- A compound inside a tree is one that the operations built. -/
theorem Tag.Built.exists_compound {entries : List (String × Tag)}
    (h : (Tag.compound entries).Built ends) :
    ∃ c : Compound, c.Built ends ∧ c.toTag = Tag.compound entries := by
  generalize ht : Tag.compound entries = t at h
  cases h with
  | leaf _ hcompound =>
    subst ht
    exact absurd rfl hcompound
  | list hl => exact absurd ht nofun
  | compound hc => exact ⟨_, hc, rfl⟩

/-! ### What the operations keep -/

/-- The rules for containers, but that compounds may hold end marks if `ends`. -/
def Tag.LegalUpTo (ends : Prop) : Tag → Prop
  | .list kind items => ∀ t ∈ items, t.kind = kind ∧ t.kind ≠ .endMark
  | .compound entries =>
    (entries.map Prod.fst).Nodup ∧ ∀ e ∈ entries, e.1 ≠ "" ∧ (e.2.kind = .endMark → ends)
  | _ => True

theorem Tag.LegalUpTo.legal {t : Tag} (hends : ¬ ends) (h : t.LegalUpTo ends) : t.Legal := by
  cases t with
  | compound entries =>
    refine ⟨h.1, fun e he => ?_⟩
    obtain ⟨hname, hend⟩ := h.2 e he
    exact ⟨hname, fun hkind => hends (hend hkind)⟩
  | _ => exact h

/-- All elements are of the kind of the list, which is not that of end marks, and obey the rules. -/
def TagList.Sound (ends : Prop) (l : TagList) : Prop :=
  ∀ t ∈ l.items, (t.kind = l.kind ∧ t.kind ≠ .endMark) ∧ t.All (LegalUpTo ends)

/-- The index is coherent, and the children have names and obey the rules. -/
structure Compound.Sound (ends : Prop) (c : Compound) : Prop where
  coherent : c.Coherent
  child : ∀ e ∈ c.entries.toList,
    (e.1 ≠ "" ∧ (e.2.kind = .endMark → ends)) ∧ e.2.All (LegalUpTo ends)

theorem TagList.Sound.toTag {l : TagList} (h : l.Sound ends) : l.toTag.All (LegalUpTo ends) :=
  .node (fun t ht => (h t (Array.mem_toList_iff.mp ht)).1)
    fun t ht => (h t (Array.mem_toList_iff.mp ht)).2

theorem TagList.Sound.push {l l' : TagList} {t : Tag} (h : l.Sound ends)
    (ht : t.All (LegalUpTo ends)) (hpush : l.push t = .ok l') : l'.Sound ends := by
  obtain ⟨hend, hkind, rfl⟩ := TagList.push_eq_ok_iff.mp hpush
  intro u hu
  rcases Array.mem_push.mp hu with hu | rfl
  · obtain ⟨⟨hukind, huend⟩, hlegal⟩ := h u hu
    -- a list that has an element is not one of end marks
    have hlist : l.kind = t.kind := hkind.resolve_left (hukind ▸ huend)
    exact ⟨⟨hukind.trans hlist, huend⟩, hlegal⟩
  · exact ⟨⟨rfl, hend⟩, ht⟩

theorem Compound.Sound.toTag {c : Compound} (h : c.Sound ends) : c.toTag.All (LegalUpTo ends) := by
  refine .node ⟨h.coherent.nodup, fun e he => (h.child e he).1⟩ fun t ht => ?_
  obtain ⟨e, he, rfl⟩ := List.mem_map.mp ht
  exact (h.child e he).2

theorem Compound.Sound.insert {c c' : Compound} {name : String} {t : Tag} (h : c.Sound ends)
    (ht : t.All (LegalUpTo ends)) (hinsert : c.insert name t = .ok c') : c'.Sound ends := by
  refine ⟨h.coherent.insert hinsert, fun e he => ?_⟩
  obtain ⟨hname, hend, -, rfl⟩ := Compound.insert_eq_ok_iff.mp hinsert
  rw [Array.toList_push, List.mem_append, List.mem_singleton] at he
  rcases he with he | rfl
  · exact h.child e he
  · exact ⟨⟨hname, fun hkind => absurd hkind hend⟩, ht⟩

theorem Compound.Sound.remove {c : Compound} (h : c.Sound ends) (name : String) :
    (c.remove name).2.Sound ends :=
  ⟨h.coherent.remove name,
    fun e he => h.child e ((Compound.entries_remove_sublist c name).mem he)⟩

/-- What takes the place of a child has the child's name, and nothing else is known of it. -/
theorem Compound.Sound.replace {c : Compound} {t : Tag} (h : c.Sound ends) (name : String)
    (ht : t.All (LegalUpTo ends)) (hend : t.kind = .endMark → ends) :
    (c.replace name t).2.Sound ends := by
  refine ⟨h.coherent.replace name t, fun e he => ?_⟩
  rcases Compound.mem_entries_replace he with he | ⟨hname, rfl⟩
  · exact h.child e he
  · obtain ⟨old, hold, hold'⟩ := List.mem_map.mp hname
    exact ⟨⟨hold' ▸ (h.child old hold).1.1, hend⟩, ht⟩

mutual

theorem Tag.Built.legalUpTo {t : Tag} : t.Built ends → t.All (LegalUpTo ends)
  | .leaf hlist hcompound => by
    cases t with
    | list kind items => exact absurd rfl hlist
    | compound entries => exact absurd rfl hcompound
    | _ => exact .node trivial (List.forall_mem_nil _)
  | .list hl => hl.sound.toTag
  | .compound hc => hc.sound.toTag

theorem TagList.Built.sound {l : TagList} : l.Built ends → l.Sound ends
  | .empty => fun _ ht => absurd ht (Array.not_mem_empty _)
  | .ofKind _ => fun _ ht => absurd ht (Array.not_mem_empty _)
  | .push hl ht h => hl.sound.push ht.legalUpTo h

theorem Compound.Built.sound {c : Compound} : c.Built ends → c.Sound ends
  | .empty => ⟨Compound.coherent_empty, fun _ he => absurd he List.not_mem_nil⟩
  | .insert hc ht h => hc.sound.insert ht.legalUpTo h
  | .remove hc name => hc.sound.remove name
  | .replace hc name ht hend => hc.sound.replace name ht.legalUpTo hend

end

/-- Children with different names can be inserted one after the other. -/
theorem Compound.Built.exists_holds {entries : List (String × Tag)}
    (hnames : (entries.map Prod.fst).Nodup)
    (h : ∀ e ∈ entries, (e.1 ≠ "" ∧ e.2.kind ≠ .endMark) ∧ e.2.Built ends) :
    ∃ c : Compound, c.Built ends ∧ c.Holds entries := by
  induction entries using List.reverseRecOn with
  | nil => exact ⟨.empty, .empty, Compound.holds_empty⟩
  | append_singleton entries e ih =>
    obtain ⟨⟨hname, hend⟩, he⟩ := h e (List.mem_append_right _ List.mem_cons_self)
    rw [List.map_append] at hnames
    obtain ⟨c, hc, hholds⟩ := ih (List.nodup_append.mp hnames).1
      fun e he => h e (List.mem_append_left _ he)
    have hnew : ¬ (e.1.isEmpty ∨ (entries.lookup e.1).isSome) := by
      rw [lookup_eq_none hnames]
      simpa using hname
    obtain ⟨c', hinsert, hholds'⟩ := hholds.insert hnew hend
    exact ⟨c', .insert hc he hinsert, hholds'⟩

/-- Without end marks for children, the rules for containers say just which trees can be built. -/
theorem Tag.built_iff_legal {t : Tag} : t.Built False ↔ t.All Legal := by
  refine ⟨fun h => h.legalUpTo.mono fun t ht => ht.legal id, fun h => ?_⟩
  induction h with
  | @node t here _ ih =>
    cases t with
    | list kind items =>
      rcases items with _ | ⟨t, items⟩
      · exact .list (.ofKind kind)
      · obtain ⟨hkind, hend⟩ := here t List.mem_cons_self
        have hpush := pushAll_eq (hkind ▸ hend) (t :: items) (fun u hu => (here u hu).1) #[]
        have hlist := Tag.Built.list ((TagList.Built.ofKind kind).pushAll ih hpush)
        simpa [TagList.toTag] using hlist
    | compound entries =>
      obtain ⟨c, hc, hentries, -⟩ := Compound.Built.exists_holds here.1 fun e he =>
        ⟨here.2 e he, ih e.2 (List.mem_map_of_mem he)⟩
      rw [← hentries]
      exact .compound hc
    | _ => exact .leaf (by simp [Tag.kind]) (by simp [Tag.kind])

/-- A compound that is a child may be built further where it stands. -/
theorem Compound.Built.within {c : Compound} (hc : c.Built ends) {name : String}
    {entries : List (String × Tag)} (hchild : c.get? name = some (.compound entries)) :
    ∃ inner : Compound, inner.Built ends ∧ inner.toTag = Tag.compound entries ∧
      ∀ inner' : Compound, inner'.Built ends → (c.replace name inner'.toTag).2.Built ends := by
  have hmem := hc.sound.coherent.get?_eq_some_iff.mp hchild
  obtain ⟨inner, hinner, heq⟩ := (hc.entry _ hmem).exists_compound
  exact ⟨inner, hinner, heq, fun inner' hinner' => hc.replace name (.compound hinner') nofun⟩

/-! ### Writing what was built -/

/-- However a tree was built, its lists hold elements of their kind and no end marks, and its
compounds have names that are different and not empty. If moreover no end mark took the place of a
child, there are none in the tree; within the limits it is then written, and what is written reads
back as the tree, up to the kinds of its empty lists. -/
theorem Tag.Built.reads_back {root : Root} (h : root.tag.Built ends) :
    root.tag.All (LegalUpTo ends) ∧
      (¬ ends → root.tag.All Legal ∧
        (root.tag.All Fits → root.tag.depth ≤ maxDepth →
          (root.name.getD "").utf8ByteSize ≤ maxTextBytes →
          ∃ bytes, root.toBytes = .ok bytes ∧ Root.ofBytes bytes = .ok (root.normal .named))) := by
  refine ⟨h.legalUpTo, fun hends => ?_⟩
  have hlegal : root.tag.All Legal := h.legalUpTo.mono fun t ht => ht.legal hends
  refine ⟨hlegal, fun hfits hdepth hname => ?_⟩
  exact ⟨root.form .named, encode_eq hfits hdepth hname, ofBytes_form hlegal hfits hdepth hname⟩

/-- A root over a list, and over a compound that took the place of an integer. -/
def builtRoot : Root :=
  ⟨some "r", .compound [("n", .list .int [.int 7]), ("c", .compound [("x", .byte 2)])]⟩

theorem reads_back_replaced_child :
    builtRoot.tag.Built False ∧ builtRoot.tag.All Legal ∧
      ∃ bytes, builtRoot.toBytes = .ok bytes ∧ Root.ofBytes bytes = .ok builtRoot := by
  have hscalar (t : Tag) (hlist : t.kind ≠ .list) (hcompound : t.kind ≠ .compound) :
      t.Built False := .leaf hlist hcompound
  have hlist : (TagList.mk .int #[.int 7]).Built False :=
    .push .empty (hscalar (.int 7) nofun nofun) rfl
  have hinner : (Compound.mk #[("x", .byte 2)] (({} : Std.HashMap String Nat).insert "x" 0)).Built
      False :=
    .single (by decide) nofun (hscalar (.byte 2) nofun nofun)
  have hn : (Compound.mk #[("n", .list .int [.int 7])]
      (({} : Std.HashMap String Nat).insert "n" 0)).Built False :=
    .single (by decide) nofun (.list hlist)
  have hc : (Compound.mk #[("n", .list .int [.int 7]), ("c", .int 1)]
      ((({} : Std.HashMap String Nat).insert "n" 0).insert "c" 1)).Built False :=
    .insert hn (hscalar (.int 1) nofun nofun) (Compound.insert_eq_ok_iff.mpr
      ⟨by decide, nofun, by simp [Compound.contains], rfl⟩)
  have hbuilt : builtRoot.tag.Built False := by
    have htag := Tag.Built.compound (hc.replace "c" (.compound hinner) (by decide))
    rwa [Compound.toTag, Compound.entries_replace (i := 1) (by simp)] at htag
  obtain ⟨hlegal, hread⟩ := (Tag.Built.reads_back hbuilt).2 id
  exact ⟨hbuilt, hlegal, hread (by decide +kernel) (by decide) (by decide +kernel)⟩

/-! ### An end mark in the place of a child -/

theorem formEntries_ne_nil (entries : List (String × Tag)) : formEntries entries ≠ [] := by
  cases entries <;> exact nofun

theorem formEntries_endMark (front : List (String × Tag)) (child : String)
    (back : List (String × Tag)) : formEntries (front ++ (child, .endMark) :: back) =
      formEntries front ++ (textForm child ++ formEntries back) := by
  induction front with
  | nil =>
    simp [formEntries, form, kind]
  | cons e front ih =>
    rw [List.cons_append, formEntries, formEntries, ih, List.append_assoc, List.append_assoc,
      List.append_assoc]

theorem depthEntries_append_le (front back : List (String × Tag)) :
    depthEntries front ≤ depthEntries (front ++ back) := by
  induction front with
  | nil => exact Nat.zero_le _
  | cons e front ih =>
    rw [List.cons_append, depthEntries, depthEntries]
    omega

/-- A compound with an end mark for a child is written, but as the document of the compound of the
children before it, and something behind. Whoever reads from it takes the shorter compound, and as a
document it is refused. -/
theorem toBytes_endMark {name : Option String} {front back : List (String × Tag)} {child : String}
    (hlegal : (Tag.compound front).All Legal)
    (hfits : (Tag.compound (front ++ (child, .endMark) :: back)).All Fits)
    (hdepth : (Tag.compound (front ++ (child, .endMark) :: back)).depth ≤ maxDepth)
    (hname : (name.getD "").utf8ByteSize ≤ maxTextBytes) :
    ∃ bytes rest, bytes = Root.form .named ⟨name, .compound front⟩ ∧
      rest = textForm child ++ formEntries back ∧
      Root.toBytes ⟨name, .compound (front ++ (child, .endMark) :: back)⟩ = .ok (bytes ++ rest) ∧
      (Read.root .named).Takes bytes rest (Root.normal .named ⟨name, .compound front⟩) ∧
      Root.ofBytes (bytes ++ rest) = .error (.format (.nbt (.trailing rest.length))) := by
  have hfront : (Tag.compound front).All Fits := by
    refine .node (fun e he => hfits.here e (List.mem_append_left _ he)) fun t ht => ?_
    obtain ⟨e, he, rfl⟩ := List.mem_map.mp ht
    exact hfits.entry (List.mem_append_left _ he)
  have hform : Root.form .named ⟨name, .compound (front ++ (child, .endMark) :: back)⟩ =
      Root.form .named ⟨name, .compound front⟩ ++ (textForm child ++ formEntries back) := by
    simp [Root.form, form, kind, formEntries_endMark]
  have hwritten : Root.toBytes ⟨name, .compound (front ++ (child, .endMark) :: back)⟩ = _ :=
    encode_eq hfits hdepth hname
  have hshallow : (Tag.compound front).depth ≤ maxDepth :=
    Nat.le_trans (Nat.succ_le_succ (depthEntries_append_le front _)) hdepth
  have htakes : (Read.root .named).Takes (Root.form .named ⟨name, .compound front⟩)
      (textForm child ++ formEntries back) (Root.normal .named ⟨name, .compound front⟩) :=
    takes_form hlegal hfront hshallow hname _
  have hread := ofBytes_of_takes htakes
  rw [if_neg (List.append_ne_nil_of_right_ne_nil _ (formEntries_ne_nil back))] at hread
  exact ⟨_, _, rfl, rfl, hwritten.trans (congrArg Except.ok hform), htakes, hread⟩

theorem endMark_in_place_of_child : ∃ c : Compound, c.Built True ∧
    c.toTag = .compound [("k", .endMark)] ∧ ¬ c.toTag.All Legal ∧
      Root.toBytes ⟨none, c.toTag⟩ = .ok [10, 0, 0, 0, 0, 1, 107, 0] ∧
      Root.ofBytes [10, 0, 0, 0, 0, 1, 107, 0] = .error (.format (.nbt (.trailing 4))) := by
  have hone : (Compound.mk #[("k", .int 1)] (({} : Std.HashMap String Nat).insert "k" 0)).Built
      True :=
    .single (by decide) nofun (.leaf (t := .int 1) nofun nofun)
  have hend := hone.replace "k" (.leaf (t := .endMark) nofun nofun) fun _ => trivial
  have htag : ((Compound.mk #[("k", .int 1)] (({} : Std.HashMap String Nat).insert "k" 0)).replace
      "k" .endMark).2.toTag = .compound [("k", .endMark)] := by
    rw [Compound.toTag, Compound.entries_replace (i := 0) (by simp)]
    rfl
  obtain ⟨_, _, rfl, rfl, hwritten, -, hread⟩ := @toBytes_endMark none [] [] "k" (by decide)
    (by decide +kernel) (by decide) (by decide +kernel)
  refine ⟨_, hend, htag, ?_, ?_, hread⟩
  · rw [htag]
    exact fun h => (h.here.2 _ List.mem_cons_self).2 rfl
  · rw [htag]
    exact hwritten

end MinecraftWire.Nbt
