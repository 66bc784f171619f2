import Symbolic.Proofs.FullForm.Image
import Symbolic.Proofs.Layout.Stable

/-!
# How blanks are written

The scanner joins the name before the underscores of a blank, the underscores, and the head after
them into the text of one token, with all escapes resolved. What the token stands for is found out
from that text alone. As no name holds an underscore or a point, the two ways to take a blank apart
are the same: what stands in the source as the name is the name of the pattern, what stands there as
the head is the argument, and the underscores say which blank it is.

## Key results

- `Placeholder.Means`: what the source of a blank means
- `Placeholder.Means.exists_plain`: such a source is scanned as one blank that stands for this
- `Placeholder.exists_means_of_foundAs`: every blank that is scanned has such a source
- `Placeholder.Means.unique`: no source means two things
-/

namespace Symbolic.Placeholder

open Scan Symbolic.Expr

/-! ## Meaning -/

/-- The underscores of the blanks and the heads of their nodes. -/
def forms : List (List Char × String) :=
  [(['_'], "Blank"), (['_', '_'], "BlankSequence"), (['_', '_', '_'], "BlankNullSequence")]

/-- The node of a blank, with its head for an argument if there is one. -/
def blankNode (kind : String) (head : List Char) (loc : Location) : Expr :=
  .node (.symbol kind loc) (if head = [] then [] else [.symbol (.ofList head) loc]) false loc

/-- A blank under a name if there is one. -/
def underName (name : List Char) (blank : Expr) (loc : Location) : Expr :=
  if name = [] then blank
  else .node (.symbol "Pattern" loc) [.symbol (.ofList name) loc, blank] false loc

/-- What the source of a blank at a location means: a name and a head, each of which may be left
    out, with underscores between them, or a name with `_.` after it. -/
inductive Means (loc : Location) : List Char → Expr → Prop where
  | blank {nameSource name marks headSource head : List Char} {kind : String}
      (spellsName : Name.Spells true nameSource name) (form : (marks, kind) ∈ forms)
      (spellsHead : Name.Spells true headSource head) :
      Means loc (nameSource ++ marks ++ headSource) (underName name (blankNode kind head loc) loc)
  | optional {nameSource name : List Char} (spellsName : Name.Spells true nameSource name) :
      Means loc (nameSource ++ ['_', '.'])
        (.node (.symbol "Optional" loc) [underName name (blankNode "Blank" [] loc) loc] false loc)

variable {name marks head source tail : List Char} {kind : String} {loc : Location} {e e' : Expr}
  {c : Cursor}

/-! ## What the texts of blanks stand for -/

theorem blankHead_of_form (form : (marks, kind) ∈ forms) :
    marks ≠ [] ∧ (∀ c ∈ marks, c = '_') ∧ blankHead marks.length = kind ∧ marks ∈ allMarks ∧
      marks ≠ ['_', '.'] := by
  simp only [forms, List.mem_cons, Prod.mk.injEq, List.not_mem_nil, or_false] at form
  rcases form with ⟨rfl, rfl⟩ | ⟨rfl, rfl⟩ | ⟨rfl, rfl⟩ <;> decide

theorem placeholder_eq_underName (name head : List Char) (marks : Nat) (loc : Location) :
    placeholder .standard name head marks loc =
      underName name (blankNode (blankHead marks) head loc) loc := by
  have hblank : OperatorTable.standard.isFlat (blankHead marks) = false := by
    unfold blankHead
    split <;> decide +kernel
  have hpattern : OperatorTable.standard.isFlat "Pattern" = false := by
    decide +kernel
  simp [placeholder, Expr.namedPattern, make, arguments, hblank, hpattern, underName, blankNode]

/-- The text of a blank with underscores. -/
theorem atom_of_form (hname : Name.Spells true source name) (form : (marks, kind) ∈ forms)
    {headSource : List Char} (hhead : Name.Spells true headSource head) (loc : Location) :
    atom .standard ⟨.blank, .ofList (name ++ marks ++ head), loc⟩ =
      .ok (underName name (blankNode kind head loc) loc) := by
  obtain ⟨hne, hmarks, hkind, -⟩ := blankHead_of_form form
  have hunderscore {source name : List Char} (h : Name.Spells true source name) : '_' ∉ name :=
    h.notMem (by decide) Character.continuesName_underscore
  have hpoint : '.' ∉ head := hhead.notMem (by decide) (by decide +kernel)
  have hmem : '_' ∈ name ++ marks ++ head := by
    obtain ⟨c, marks, rfl⟩ := List.exists_cons_of_ne_nil hne
    simp [hmarks c List.mem_cons_self]
  -- the text falls into the name, the underscores and the head again
  have hparts := blankParts_append (hunderscore hname) hne hmarks (hunderscore hhead)
  have hoptional : optionalName? (String.ofList (name ++ marks ++ head)).toList = none := by
    rw [String.toList_ofList, optionalName?_append hne hmarks hpoint]
  have hblank : Expr.blank .standard ⟨.blank, .ofList (name ++ marks ++ head), loc⟩ = _ :=
    blank_of_mem hoptional (by rwa [String.toList_ofList])
  rw [String.toList_ofList, hparts, placeholder_eq_underName, hkind] at hblank
  exact hblank

/-- The text of an optional blank. -/
theorem atom_of_optional (name : List Char) (loc : Location) :
    atom .standard ⟨.blank, .ofList (name ++ ['_', '.']), loc⟩ =
      .ok (.node (.symbol "Optional" loc)
        [underName name (blankNode "Blank" [] loc) loc] false loc) := by
  have hflat : OperatorTable.standard.isFlat "Optional" = false := by
    decide +kernel
  have hname : optionalName? (String.ofList (name ++ ['_', '.'])).toList = some name := by
    simp [optionalName?]
  have hblank : Expr.blank .standard ⟨.blank, .ofList (name ++ ['_', '.']), loc⟩ = _ :=
    blank_of_optionalName? hname
  rw [placeholder_eq_underName, make, arguments, hflat] at hblank
  exact hblank

/-! ## Scanning a source -/

/-- A name before an underscore is that of a blank. -/
theorem plain_of_spells (h : Name.Spells true source name) (offset : Nat) (rest : List Char) :
    plain ⟨offset, source ++ '_' :: rest⟩ =
      .ok (read name ⟨offset + Text.byteLength source, '_' :: rest⟩) := by
  have hends := Name.endsName_underscore rest
  by_cases hne : source = []
  · subst hne
    rw [h.eq_nil]
    rfl
  · rw [plain_of_startsAt (h.startsAt_append hne hends offset), Scan.symbol, Name.read,
      h.readFrom_append hends offset]
    exact congrArg Except.ok (if_pos rfl)

/-- Underscores are read with the head after them. -/
theorem read_of_form (form : (marks, kind) ∈ forms) (h : Name.Spells true source head)
    (htail : AtBoundary tail) (name : List Char) (offset : Nat) :
    read name ⟨offset, marks ++ (source ++ tail)⟩ =
      ⟨.blank, name ++ marks ++ head, ⟨offset + Text.byteLength (marks ++ source), tail⟩⟩ := by
  obtain ⟨-, -, -, hmem, hnot⟩ := blankHead_of_form form
  have hread := h.readFrom_append (Name.endsName_of_atBoundary htail)
    (offset + Text.byteLength marks)
  have hends : EndsMarks (source ++ tail) := endsMarks_append htail (congrArg Prod.snd hread)
  simp only [read, Placeholder.marks_append hmem hends, if_neg hnot, Cursor.after, Name.read, hread,
    Text.byteLength_append, Nat.add_assoc]

/-- The source of a blank is scanned as one lexeme, which stands for what the source means. -/
theorem Means.exists_plain (h : Means loc source e) :
    ∃ text, atom .standard ⟨.blank, .ofList text, loc⟩ = .ok e ∧
      ∀ offset tail, AtBoundary tail → plain ⟨offset, source ++ tail⟩ =
        .ok ⟨.blank, text, ⟨offset + Text.byteLength source, tail⟩⟩ := by
  cases h with
  | @blank nameSource name marks headSource head kind spellsName form spellsHead =>
    refine ⟨_, atom_of_form spellsName form spellsHead loc, fun offset tail htail => ?_⟩
    -- behind the name the underscores are read, and then the head
    have hread := read_of_form form spellsHead htail name (offset + Text.byteLength nameSource)
    obtain ⟨hne, hmarks, -⟩ := blankHead_of_form form
    obtain ⟨d, more, rfl⟩ := List.exists_cons_of_ne_nil hne
    obtain rfl := hmarks d List.mem_cons_self
    have happend : nameSource ++ '_' :: more ++ headSource ++ tail =
        nameSource ++ '_' :: (more ++ (headSource ++ tail)) := by
      simp
    rw [happend, plain_of_spells spellsName]
    refine congrArg Except.ok (hread.trans ?_)
    rw [List.append_assoc nameSource, Text.byteLength_append nameSource, Nat.add_assoc]
  | @optional nameSource name spellsName =>
    refine ⟨_, atom_of_optional name loc, fun offset tail htail => ?_⟩
    -- an underscore and a point end the blank
    have hmarks : marks (['_', '.'] ++ tail) = (['_', '.'], tail) :=
      marks_append (by decide) (endsMarks_of_atBoundary htail)
    have happend : nameSource ++ ['_', '.'] ++ tail = nameSource ++ '_' :: ('.' :: tail) := by
      simp
    rw [happend, plain_of_spells spellsName]
    refine congrArg Except.ok ?_
    simp only [read, show '_' :: '.' :: tail = ['_', '.'] ++ tail from rfl, hmarks, if_true,
      Cursor.after, Text.byteLength_append, Nat.add_assoc]

/-- No source means two things. -/
theorem Means.unique (h : Means loc source e) (h' : Means loc source e') : e = e' := by
  obtain ⟨text, hatom, hplain⟩ := h.exists_plain
  obtain ⟨text', hatom', hplain'⟩ := h'.exists_plain
  have hsame := (hplain 0 [] atBoundary_nil).symm.trans (hplain' 0 [] atBoundary_nil)
  obtain rfl : text = text' := (Lexeme.mk.inj (Except.ok.inj hsame)).2.1
  exact Except.ok.inj (hatom.symm.trans hatom')

/-! ## The sources of blanks -/

theorem exists_form_of_mem (hmem : marks ∈ allMarks) (hnot : marks ≠ ['_', '.']) :
    ∃ kind, (marks, kind) ∈ forms := by
  simp only [allMarks, List.mem_cons, List.not_mem_nil, or_false] at hmem
  rcases hmem with rfl | rfl | rfl | rfl
  · exact absurd rfl hnot
  · exact ⟨"BlankNullSequence", by decide⟩
  · exact ⟨"BlankSequence", by decide⟩
  · exact ⟨"Blank", by decide⟩

/-- What is read from underscores on, after a name, has a source. -/
theorem exists_means_of_read {nameSource : List Char} (hname : Name.Spells true nameSource name)
    (hc : c.rest.head? = some '_') :
    ∃ source, c.Passes source (read name c).next ∧ (read name c).kind = .blank ∧
      ∀ loc, ∃ e, Means loc (nameSource ++ source) e ∧
        atom .standard ⟨.blank, .ofList (read name c).text, loc⟩ = .ok e := by
  obtain ⟨cs, hcs⟩ := List.head?_eq_some_iff.mp hc
  have hmem := marks_mem_allMarks cs
  have happend := append_marks ('_' :: cs)
  rw [← hcs] at hmem happend
  have hpasses : c.Passes (marks c.rest).1 (c.after (marks c.rest).1 (marks c.rest).2) :=
    Cursor.passes_after happend.symm
  -- an optional blank, or one of a form that has a head behind its underscores
  by_cases hoptional : (marks c.rest).1 = ['_', '.']
  · have hread : read name c =
        ⟨.blank, name ++ ['_', '.'], c.after (marks c.rest).1 (marks c.rest).2⟩ := by
      simp [read, hoptional]
    rw [hread]
    exact ⟨['_', '.'], hoptional ▸ hpasses, rfl, fun loc =>
      ⟨_, .optional hname, atom_of_optional name loc⟩⟩
  · obtain ⟨kind, form⟩ := exists_form_of_mem hmem hoptional
    obtain ⟨headSource, hhead, hspells⟩ := Name.exists_spells_readFrom true
      (c.after (marks c.rest).1 (marks c.rest).2)
    have hread : read name c = ⟨.blank, name ++ (marks c.rest).1 ++
        (Name.readFrom true (c.after (marks c.rest).1 (marks c.rest).2)).1,
        (Name.readFrom true (c.after (marks c.rest).1 (marks c.rest).2)).2⟩ := by
      simp [read, hoptional, Name.read]
    rw [hread]
    refine ⟨(marks c.rest).1 ++ headSource, hpasses.trans hhead, rfl, fun loc => ?_⟩
    rw [← List.append_assoc]
    exact ⟨_, .blank hname form hspells, atom_of_form hname form hspells loc⟩

/-- Every blank that is scanned has a source that means what the blank stands for. -/
theorem exists_means_of_foundAs {found : Lexeme} (h : FoundAs c found)
    (hkind : found.kind = .blank) :
    ∃ source, c.Passes source found.next ∧ ∀ loc, ∃ e, Means loc source e ∧
      atom .standard ⟨.blank, .ofList found.text, loc⟩ = .ok e := by
  cases h with
  | stop kind => cases kind.symm.trans hkind
  | string kind => cases kind.symm.trans hkind
  | slot _ eq => rcases kind_slot c with kind | kind <;> cases (eq ▸ kind).symm.trans hkind
  | out _ eq =>
    rw [eq] at hkind
    cases hkind
  | placeholder start eq =>
    rw [eq]
    -- a blank without a name
    obtain ⟨source, hpasses, -, hmeans⟩ := exists_means_of_read .nil start
    exact ⟨source, hpasses, hmeans⟩
  | symbol starts eq =>
    rw [eq] at hkind ⊢
    obtain ⟨nameSource, hname, hspells⟩ := Name.exists_spells_readFrom true c
    by_cases hunderscore : (Name.read c).2.rest.head? = some '_'
    · -- an underscore after the name makes it that of a blank
      have hsymbol : Scan.symbol c = read (Name.read c).1 (Name.read c).2 := if_pos hunderscore
      rw [hsymbol]
      obtain ⟨source, hpasses, -, hmeans⟩ := exists_means_of_read hspells hunderscore
      exact ⟨nameSource ++ source, hname.trans hpasses, hmeans⟩
    · rw [show Scan.symbol c = ⟨.symbol, (Name.read c).1, (Name.read c).2⟩ from
        if_neg hunderscore] at hkind
      cases hkind
  | numeral _ read =>
    obtain ⟨literal, rest, -, rfl⟩ := numeral_of_read read
    cases hkind
  | mark kind =>
    rw [hkind] at kind
    cases kind

end Symbolic.Placeholder
