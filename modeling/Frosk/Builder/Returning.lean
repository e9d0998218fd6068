import Mathlib.Tactic
import Frosk.Builder.Tokens
import Frosk.Builder.Runs

/-!
# The image builder: what returns

The loops of `parse_next` and `parse_directory` leave exactly where the grammar has the text, and
the calls for its directives return.

* `Items.build` — the calls for the directives of a directory, without the text.
* `parseDirectory_tells` — on a text that the grammar has, the parser goes on as these calls
  do, and reports something if the grammar says so.
* `parseDirectory_reads` — a text on which the parser returned is one that the grammar has.
-/

namespace Frosk.Builder.Text

open Lib Fs

variable {H : Host} {k : Nat} {sub : Source → Ptr → Parser → Option Parser} {src src' : Source}
  {p p' q : Parser}
  {t t' : List UInt8} {o : Option UInt8} {e e' first : Bool} {lax : Prop} {file : Bool} {cls : Class}
  {values values' : Values} {type : Int} {par dir : Ptr}

-- ---------------------------------------------------------------------------
-- Fields
-- ---------------------------------------------------------------------------

/-- A field that the class knows is set. -/
theorem setField_known {left right : CStr} {i : Nat} (h : Known cls left i) (par : Ptr) (values : Values) :
    setField ⟨cls, par, values⟩ left right = some ⟨cls, par, Function.update values i (some right)⟩ := by
  have hfind : (Class.fields cls).findIdx? (fun field => hostStrcmp left field = 0) = some i := h
  rw [setField, hfind]
  rfl

/-- With a field that the class does not know the parse ends. -/
theorem setField_unknown {left right : CStr} (h : ∀ i, ¬ Known cls left i) (par : Ptr) (values : Values) :
    setField ⟨cls, par, values⟩ left right = none := by
  have hfind : (Class.fields cls).findIdx? (fun field => hostStrcmp left field = 0) = none :=
    Option.eq_none_iff_forall_ne_some.mpr h
  rw [setField, hfind]
  rfl

/-- What `set_field` leaves, with the error if it has no such field. -/
def assign (type : Int) (d : Directive) (left right : CStr) (src : Source) (p : Parser) :
    Directive × Source × Parser :=
  match setField d left right with
  | some d => (d, src, p)
  | none => (d, src, p.error (.invalidField left type))

/-- The value is stored, or the name is reported. -/
theorem assign_moves {left right : CStr} (hset : Assigns lax cls left right values values' e) (type : Int)
    (par : Ptr) (src : Source) (p : Parser) :
    ∃ p', assign type ⟨cls, par, values⟩ left right src p = (⟨cls, par, values'⟩, src, p') ∧
      p'.image = p.image ∧ Notes p p' e := by
  cases hset with
  | known hknown =>
    rw [assign, setField_known hknown]
    exact ⟨p, rfl, rfl, notes_nothing rfl⟩
  | unknown _ hunknown =>
    rw [assign, setField_unknown hunknown]
    exact ⟨_, rfl, rfl, notes_error p _⟩

/-- A comma before a field, where the grammar has one, is read. -/
theorem comma_moves (h : src.Stands t) (hcomma : Comma lax first t t' e) (p : Parser) :
    ∃ src' p', (if first then some (src, p) else expect ',' src p) = some (src', p') ∧
      Moves src p t' e src' p' := by
  cases first with
  | true =>
    obtain ⟨rfl, rfl⟩ := hcomma
    exact ⟨src, p, rfl, rfl, h, rfl, notes_nothing rfl⟩
  | false => exact expect_moves (by decide) h hcomma p

/-- What was read there is what the grammar has. -/
theorem comma_reads {v : Source × Parser} (h : src.Stands t)
    (hrun : (if first then some (src, p) else expect ',' src p) = some v) :
    ∃ t' e, Comma True first t t' e := by
  cases first with
  | true => exact ⟨t, false, rfl, rfl⟩
  | false => exact expect_reads h hrun

/-- A field behind a comma is like the first one. -/
theorem parseField_eq (type : Int) (first : Bool) (d : Directive) (src : Source) (p : Parser) :
    parseField type first d src p =
      (if first then some (src, p) else expect ',' src p).bind fun r => parseField type true d r.1 r.2 := by
  cases first with
  | true => rfl
  | false => exact parseField_comma d src p

/-- The rest of a field, behind the comma. -/
theorem parseField_true_eq (type : Int) (d : Directive) (src : Source) (p : Parser) :
    parseField type true d src p = (getstr ['=', ']'] src p).bind fun l =>
      (expect '=' l.2.1 l.2.2).bind fun r =>
      (getstr [',', ']'] r.1 r.2).map fun v => assign type d l.1 v.1 v.2.1 v.2.2 := by
  simp only [parseField, if_true, Option.bind_eq_bind, Option.bind_some, Option.map_eq_bind]
  refine congrArg _ (funext fun l => congrArg _ (funext fun r => congrArg _ (funext fun v => ?_)))
  rw [Function.comp_apply, assign]
  cases setField d l.1 v.1 with
  | some d' => rfl
  | none => rfl

/-- A field of the grammar is read, up to its end. -/
theorem parseField_moves (h : src.Stands t) (hfield : Field lax src.file cls first values t values' t' e)
    (type : Int) (par : Ptr) (p : Parser) :
    ∃ src' p', parseField type first ⟨cls, par, values⟩ src p = some (⟨cls, par, values'⟩, src', p') ∧
      Moves src p t' e src' p' := by
  cases hfield with
  | mk hcomma hleft hequal hright hset =>
    obtain ⟨src₁, p₁, hrun₁, hmove₁⟩ := comma_moves h hcomma p
    obtain ⟨src₂, p₂, hrun₂, hmove₂⟩ := getstr_moves marks_equal hmove₁.stands (hmove₁.file ▸ hleft) p₁
    have hmove₂ := hmove₁.trans hmove₂
    obtain ⟨src₃, p₃, hrun₃, hmove₃⟩ := expect_moves (by decide) hmove₂.stands hequal p₂
    have hmove₃ := hmove₂.trans hmove₃
    obtain ⟨src₄, p₄, hrun₄, hmove₄⟩ := getstr_moves marks_comma hmove₃.stands (hmove₃.file ▸ hright) p₃
    have hmove₄ := hmove₃.trans hmove₄
    rw [Bool.or_false, Bool.or_false] at hmove₄
    obtain ⟨p₅, hrun₅, himage, hnotes⟩ := assign_moves hset type par src₄ p₄
    refine ⟨src₄, p₅, ?_, hmove₄.file, hmove₄.stands, himage.trans hmove₄.image, hmove₄.notes.trans hnotes⟩
    rw [parseField_eq, hrun₁, Option.bind_some, parseField_true_eq, hrun₂, Option.bind_some, hrun₃,
      Option.bind_some, hrun₄, Option.map_some]
    exact congrArg some hrun₅

/-- A field that was read is one of the grammar. -/
theorem parseField_reads {v : Directive × Source × Parser} (h : src.Stands t)
    (hrun : parseField type first ⟨cls, par, values⟩ src p = some v) :
    ∃ values' t' e, Field True src.file cls first values t values' t' e := by
  rw [parseField_eq] at hrun
  obtain ⟨v₁, hrun₁, hrun⟩ := Option.bind_eq_some_iff.mp hrun
  rw [parseField_true_eq] at hrun
  obtain ⟨t₁, e₁, hcomma⟩ := comma_reads h hrun₁
  obtain ⟨src₁, p₁, hcall₁, hmove₁⟩ := comma_moves h hcomma p
  obtain rfl := Option.some.inj (hcall₁.symm.trans hrun₁)
  obtain ⟨v₂, hrun₂, hrun⟩ := Option.bind_eq_some_iff.mp hrun
  obtain ⟨left, t₂, hleft⟩ := getstr_reads marks_equal hmove₁.stands hrun₂
  obtain ⟨src₂, p₂, hcall₂, hmove₂⟩ := getstr_moves marks_equal hmove₁.stands hleft p₁
  obtain rfl := Option.some.inj (hcall₂.symm.trans hrun₂)
  obtain ⟨v₃, hrun₃, hrun⟩ := Option.bind_eq_some_iff.mp hrun
  obtain ⟨t₃, e₂, hequal⟩ := expect_reads hmove₂.stands hrun₃
  obtain ⟨src₃, p₃, hcall₃, hmove₃⟩ := expect_moves (by decide) hmove₂.stands hequal p₂
  obtain rfl := Option.some.inj (hcall₃.symm.trans hrun₃)
  obtain ⟨v₄, hrun₄, -⟩ := Option.map_eq_some_iff.mp hrun
  obtain ⟨right, t₄, hright⟩ := getstr_reads marks_comma hmove₃.stands hrun₄
  have hmove := (hmove₁.trans hmove₂).trans hmove₃
  have hset : ∃ values' e, Assigns True cls left right values values' e := by
    by_cases hknown : ∃ i, Known cls left i
    · obtain ⟨i, hi⟩ := hknown
      exact ⟨_, false, .known hi⟩
    · exact ⟨values, true, .unknown trivial (not_exists.mp hknown)⟩
  obtain ⟨values', e₃, hset⟩ := hset
  exact ⟨values', t₄, _, .mk hcomma (hmove₁.file ▸ hleft) hequal (hmove.file ▸ hright) hset⟩

/-- The bracket behind the fields. -/
theorem fieldBody_close (h : src.Stands t) (hclose : Skips t (']'.toUInt8 :: t')) (type : Int) (d : Directive)
    (p : Parser) (first : Bool) : ∃ src' p', fieldBody type (d, src, p, first) = .inr (some (d, src', p')) ∧
      Moves src p (']'.toUInt8 :: t') false src' p' := by
  have hkept : ∀ b ∈ (']'.toUInt8 :: t').head?, Kept src.file b := by
    intro b hb
    obtain rfl := Option.some.inj hb
    exact .inr (by decide)
  have hpeeks : Peeks False src.file t (']'.toUInt8 :: t').head? (']'.toUInt8 :: t') := .kept hclose hkept
  obtain ⟨src', p', hpeek, hmove⟩ := peekc_moves h hpeeks p
  have hcode : src.int (']'.toUInt8 :: t').head? = code ']' := (int_eq_code (by decide)).mpr rfl
  refine ⟨src', p', ?_, hmove⟩
  simp only [fieldBody, hpeek, hcode, if_true]

/-- One round of the loop over the fields reads one field. -/
theorem fieldBody_more {t₁ : List UInt8} (h : src.Stands t) (hpeeks : Peeks lax src.file t o t₁)
    (hne : o ≠ some ']'.toUInt8) (hfield : Field lax src.file cls first values t₁ values' t' e) (type : Int)
    (par : Ptr) (p : Parser) : ∃ src' p', fieldBody type (⟨cls, par, values⟩, src, p, first) =
      .inl (⟨cls, par, values'⟩, src', p', false) ∧ Moves src p t' e src' p' := by
  obtain ⟨src₁, p₁, hpeek, hmove₁⟩ := peekc_moves h hpeeks p
  obtain ⟨src₂, p₂, hrun, hmove₂⟩ := parseField_moves hmove₁.stands (hmove₁.file ▸ hfield) type par p₁
  have hcode : src.int o ≠ code ']' := by rwa [Ne, int_eq_code (by decide)]
  refine ⟨src₂, p₂, ?_, hmove₁.trans hmove₂⟩
  simp only [fieldBody, hpeek, if_neg hcode, hrun]

/-- The loop reads all the fields, by induction on them. -/
theorem fields_moves (h : src.Stands t) (hfills : Fills lax file cls first values t values' t' e)
    (hfile : src.file = file) (type : Int) (par : Ptr) (p : Parser) {m : Nat} (hm : t.length < m) :
    ∃ src' p', iterate (fieldBody type) m (⟨cls, par, values⟩, src, p, first) =
      some (some (⟨cls, par, values'⟩, src', p')) ∧ Moves src p (']'.toUInt8 :: t') e src' p' := by
  induction hfills generalizing src p m with
  | close hclose =>
    obtain ⟨m, rfl⟩ : ∃ j, m = j + 1 := ⟨m - 1, by omega⟩
    obtain ⟨src', p', hbody, hmove⟩ := fieldBody_close h hclose type _ p _
    exact ⟨src', p', iterate_succ_inr hbody m, hmove⟩
  | field hpeeks hne hfield _ ih =>
    obtain ⟨m, rfl⟩ : ∃ j, m = j + 1 := ⟨m - 1, by omega⟩
    have hlt := hfield.length_lt.trans_le hpeeks.length_le
    subst hfile
    obtain ⟨src₁, p₁, hbody, hmove₁⟩ := fieldBody_more h hpeeks hne hfield type par p
    obtain ⟨src', p', hloop, hmove₂⟩ := ih hmove₁.stands hmove₁.file p₁ (by omega : _ < m)
    exact ⟨src', p', by rw [iterate_succ_inl hbody, hloop], hmove₁.trans hmove₂⟩

/-- The fields that a loop has read are those of the grammar, by induction on its rounds. -/
theorem fields_reads (h : src.Stands t) {m : Nat} {v : Directive × Source × Parser}
    (hloop : iterate (fieldBody type) m (⟨cls, par, values⟩, src, p, first) = some (some v)) :
    ∃ values' t' e, Fills True src.file cls first values t values' t' e := by
  refine iterate_invariant
    (fun x => x.1.cls = cls ∧ x.1.par = par ∧ x.2.1.file = src.file ∧ ∃ t₁, x.2.1.Stands t₁ ∧ ∀ values' t' e,
      Fills True src.file cls x.2.2.2 x.1.values t₁ values' t' e →
      ∃ e', Fills True src.file cls first values t values' t' e')
    (fun y => ∀ v, y = some v → ∃ values' t' e, Fills True src.file cls first values t values' t' e)
    ?_ ?_ ⟨rfl, rfl, rfl, t, h, fun _ _ e h => ⟨e, h⟩⟩ hloop v rfl
  · rintro ⟨⟨cls₁, par₁, values₁⟩, s, q, first₁⟩ y ⟨hcls, hpar, hsame, t₁, hs, hback⟩ hround
    obtain rfl : cls₁ = cls := hcls
    obtain rfl : par₁ = par := hpar
    have hsame : s.file = src.file := hsame
    simp only [fieldBody] at hround
    split at hround
    · cases hround
    · next c s₁ q₁ hpeek =>
      obtain ⟨o, t₂, hpeeks⟩ := peekc_reads hs hpeek
      obtain ⟨s₂, q₂, hcall, hmove⟩ := peekc_moves hs hpeeks q
      obtain ⟨rfl, hrest⟩ := Prod.mk.inj (Option.some.inj (hcall.symm.trans hpeek))
      obtain ⟨rfl, rfl⟩ := Prod.mk.inj hrest
      split_ifs at hround with hcode
      rw [int_eq_code (by decide)] at hcode
      split at hround
      · cases hround
      · next d₃ s₃ q₃ hrun =>
        obtain rfl := Sum.inl.inj hround
        obtain ⟨values₂, t₃, e₂, hfield⟩ := parseField_reads hmove.stands hrun
        obtain ⟨s₄, q₄, hcall', hmove'⟩ := parseField_moves hmove.stands hfield type par₁ q₂
        obtain ⟨rfl, hrest⟩ := Prod.mk.inj (Option.some.inj (hcall'.symm.trans hrun))
        obtain ⟨rfl, rfl⟩ := Prod.mk.inj hrest
        rw [hmove.file, hsame] at hfield
        rw [hsame] at hpeeks
        refine ⟨rfl, rfl, (hmove'.file.trans hmove.file).trans hsame, t₃, hmove'.stands,
          fun values' t' e hfills => ?_⟩
        exact hback values' t' _ (.field hpeeks hcode hfield hfills)
  · rintro ⟨⟨cls₁, par₁, values₁⟩, s, q, first₁⟩ y ⟨hcls, hpar, hsame, t₁, hs, hback⟩ hleave v rfl
    have hsame : s.file = src.file := hsame
    simp only [fieldBody] at hleave
    split at hleave
    · cases hleave
    · next c s₁ q₁ hpeek =>
      obtain ⟨o, t₂, hpeeks⟩ := peekc_reads hs hpeek
      obtain ⟨s₂, q₂, hcall, -⟩ := peekc_moves hs hpeeks q
      obtain ⟨rfl, -⟩ := Prod.mk.inj (Option.some.inj (hcall.symm.trans hpeek))
      split_ifs at hleave with hcode
      · rw [int_eq_code (by decide)] at hcode
        cases hpeeks with
        | kept hskips _ =>
          obtain ⟨t₃, rfl⟩ := List.head?_eq_some_iff.mp hcode
          obtain ⟨e', hfills⟩ := hback _ t₃ _ (.close hskips)
          exact ⟨_, t₃, e', hfills⟩
        | lost _ _ hlost =>
          obtain rfl := Option.some.inj hcode
          exact absurd (.inr (by decide)) hlost
      · split at hleave
        · cases hleave
        · cases hleave

-- ---------------------------------------------------------------------------
-- Directives
-- ---------------------------------------------------------------------------

/-- A directive begins with the letter of its class. -/
theorem getDirective_some {c : Int} {d : Directive} (h : getDirective c par = some d) :
    ∃ cls : Class, c = code cls.mark ∧ d = ⟨cls, par, fun _ => none⟩ := by
  obtain ⟨cls, hfind, rfl⟩ := Option.map_eq_some_iff.mp h
  have hmark := List.find?_some hfind
  exact ⟨cls, (of_decide_eq_true hmark).symm, rfl⟩

/-- The loop of `parse_directory` goes on behind a directive that returned. -/
def goOn : Option (Source × Parser) → (Source × Parser) ⊕ Option Parser
  | none => .inr none
  | some r => .inl r

/-- A round of the loop of `parse_directory`, up to the class of the directive. -/
theorem directoryBody_moves (h : src.Stands t) (hdeclares : Declares lax src.file t cls values t' e)
    (H : Host) (k : Nat) (sub : Source → Ptr → Parser → Option Parser) (dir : Ptr) (p : Parser) :
    ∃ src₁ p₁, Moves src p (']'.toUInt8 :: t') e src₁ p₁ ∧ directoryBody H k sub dir (src, p) =
      goOn ((confirmDirective H k sub ⟨cls, dir, values⟩ p₁).bind fun r =>
        expect ']' src₁ (if r.1 then r.2 else r.2.error (.unverified (code cls.mark)))) := by
  cases hdeclares with
  | mk hpeek ho htype hcolon hopen hfields =>
    obtain ⟨src₁, p₁, hcall₁, hmove₁⟩ := peekc_moves h hpeek p
    obtain ⟨src₂, p₂, hcall₂, hpass₂⟩ := nextc_skips hmove₁.stands htype p₁
    have hmove₂ := hmove₁.trans hpass₂.moves
    obtain ⟨src₃, p₃, hcall₃, hmove₃⟩ := expect_moves (by decide) hmove₂.stands hcolon p₂
    have hmove₃ := hmove₂.trans hmove₃
    obtain ⟨src₄, p₄, hcall₄, hmove₄⟩ := expect_moves (by decide) hmove₃.stands hopen p₃
    have hmove₄ := hmove₃.trans hmove₄
    obtain ⟨src₅, p₅, hloop, hmove₅⟩ := fields_moves hmove₄.stands hfields hmove₄.file (code cls.mark) dir p₄
      hmove₄.stands.rounds
    have hmove₅ := hmove₄.trans hmove₅
    have hend := (atEnd_iff src _).not.mp ho
    have hcode : src₁.int (some cls.mark.toUInt8) = code cls.mark :=
      (int_eq_code (mark_ascii_cls cls)).mpr rfl
    rw [List.head?_cons, hcode] at hcall₂
    refine ⟨src₅, p₅, hmove₅, ?_⟩
    simp only [directoryBody, hcall₁, if_neg hend, parseNext, hcall₂, hcall₃, hcall₄,
      getDirective_mark, hloop, Option.bind_eq_bind, Option.bind_some, Option.join_some]
    rfl

/-- The loop over the directives ends at the end of the text. -/
theorem directoryBody_end (h : src.Stands t) (hpeeks : Peeks lax src.file t o t') (ho : AtEnd src.file o)
    (H : Host) (k : Nat) (sub : Source → Ptr → Parser → Option Parser) (dir : Ptr) (p : Parser) :
    ∃ p', directoryBody H k sub dir (src, p) = .inr (some p') ∧ p'.image = p.image ∧
      Notes p p' false := by
  obtain ⟨src', p', hpeek, hmove⟩ := peekc_moves h hpeeks p
  have hend : src.int o = eof := (atEnd_iff src o).mp ho
  exact ⟨p', by simp only [directoryBody, hpeek, hend, if_true], hmove.image, hmove.notes⟩

/-- A round that returned was at the end, or at a directive. -/
theorem directoryBody_reads (h : src.Stands t) {y : (Source × Parser) ⊕ Option Parser} (hy : y ≠ .inr none)
    (hround : directoryBody H k sub dir (src, p) = y) :
    (∃ o t', Peeks True src.file t o t' ∧ AtEnd src.file o) ∨
      ∃ cls values t' e, Declares True src.file t cls values t' e := by
  simp only [directoryBody] at hround
  split at hround
  · exact absurd hround.symm hy
  · next c s₁ q₁ hpeek =>
    obtain ⟨o, t₁, hpeeks⟩ := peekc_reads h hpeek
    obtain ⟨src₁, p₁, hcall₁, hmove₁⟩ := peekc_moves h hpeeks p
    obtain ⟨rfl, hrest⟩ := Prod.mk.inj (Option.some.inj (hcall₁.symm.trans hpeek))
    obtain ⟨rfl, rfl⟩ := Prod.mk.inj hrest
    by_cases hend : src.int o = eof
    · exact .inl ⟨o, t₁, hpeeks, (atEnd_iff src o).mpr hend⟩
    · rw [if_neg hend] at hround
      split at hround
      · exact absurd hround.symm hy
      · next r hnext =>
        obtain ⟨⟨c₂, s₂, q₂⟩, hrun₂, hnext⟩ := Option.bind_eq_some_iff.mp hnext
        obtain ⟨r₂, hskips⟩ := nextc_reads hmove₁.stands hrun₂
        obtain ⟨src₂, p₂, hcall₂, hpass₂⟩ := nextc_skips hmove₁.stands hskips p₁
        obtain ⟨rfl, hrest⟩ := Prod.mk.inj (Option.some.inj (hcall₂.symm.trans hrun₂))
        obtain ⟨rfl, rfl⟩ := Prod.mk.inj hrest
        have hmove₂ := hmove₁.trans hpass₂.moves
        obtain ⟨v₃, hrun₃, hnext⟩ := Option.bind_eq_some_iff.mp hnext
        obtain ⟨t₃, e₁, hcolon⟩ := expect_reads hmove₂.stands hrun₃
        obtain ⟨src₃, p₃, hcall₃, hmove₃⟩ := expect_moves (by decide) hmove₂.stands hcolon p₂
        obtain rfl := Option.some.inj (hcall₃.symm.trans hrun₃)
        obtain ⟨v₄, hrun₄, hnext⟩ := Option.bind_eq_some_iff.mp hnext
        obtain ⟨t₄, e₂, hopen⟩ := expect_reads hmove₃.stands hrun₄
        obtain ⟨src₄, p₄, hcall₄, hmove₄⟩ := expect_moves (by decide) hmove₃.stands hopen p₃
        obtain rfl := Option.some.inj (hcall₄.symm.trans hrun₄)
        obtain ⟨d, hdir, hnext⟩ := Option.bind_eq_some_iff.mp hnext
        obtain ⟨cls, hmark, rfl⟩ := getDirective_some hdir
        obtain ⟨v₅, hloop, -⟩ := Option.bind_eq_some_iff.mp hnext
        obtain ⟨values, t₅, e₃, hfills⟩ := fields_reads hmove₄.stands (Option.join_eq_some_iff.mp hloop)
        have hmove := (hmove₂.trans hmove₃).trans hmove₄
        rw [int_eq_code (mark_ascii_cls cls)] at hmark
        obtain ⟨r₂, rfl⟩ := List.head?_eq_some_iff.mp hmark
        refine .inr ⟨cls, values, t₅, _, .mk hpeeks (fun hat => hend ((atEnd_iff src o).mp hat)) hskips hcolon
          hopen (hmove.file ▸ hfills)⟩

-- ---------------------------------------------------------------------------
-- The calls for directives
-- ---------------------------------------------------------------------------

/-- What the directives of a directory have the builder do. -/
def Items.build (H : Host) (k : Nat) : Items → Ptr → Image → Option Image
  | .done, _, s => some s
  | .entry cls values _ inner rest, dir, s => do
    let (name, make) ← (Directive.mk cls dir values).make H k
    let (s, nd) ← make s
    let s ← Builder.confirmCommon H k ⟨name, values 2, values 3⟩ nd s
    let s ← inner.build H k nd s
    rest.build H k dir s

/-- The parser goes on as the calls do, which leave an image or do not return. -/
def Tells {α : Type} (f : Parser → α) (x : Option α) (y : Option Image) (p : Parser) (e : Bool) : Prop :=
  (y = none → x = none) ∧ ∀ image, y = some image → ∃ p', x = some (f p') ∧ p'.image = image ∧ Notes p p' e

section Telling

variable {α β : Type} {f : Parser → α} {g : Parser → β} {x : Option α} {y : Option Image}

/-- Two steps after one another, with the messages of both. -/
theorem Tells.bind {c : α → Option β} {d : Image → Option Image} (h : Tells f x y p e)
    (hnext : ∀ q, Tells g (c (f q)) (d q.image) q e') : Tells g (x.bind c) (y.bind d) p (e || e') := by
  cases y with
  | none =>
    rw [h.1 rfl]
    exact ⟨fun _ => rfl, fun image h => absurd h.symm (Option.some_ne_none image)⟩
  | some image =>
    obtain ⟨q, hx, himage, hnotes⟩ := h.2 image rfl
    obtain ⟨hnone, hsome⟩ := hnext q
    rw [hx, Option.bind_some, Option.bind_some, ← himage]
    refine ⟨hnone, ?_⟩
    intro image' himage'
    obtain ⟨p', hp', himage'', hnotes'⟩ := hsome image' himage'
    exact ⟨p', hp', himage'', hnotes.trans hnotes'⟩

theorem tells_some (f : Parser → α) (p : Parser) : Tells f (some (f p)) (some p.image) p false :=
  ⟨fun h => absurd h (Option.some_ne_none _), fun _ h => ⟨p, rfl, Option.some.inj h, notes_nothing rfl⟩⟩

/-- A call that both make. -/
theorem tells_call {γ : Type} {call : Option γ} {c : γ → Option α} {d : γ → Option Image}
    (h : ∀ r, Tells f (c r) (d r) p e) : Tells f (call.bind c) (call.bind d) p e := by
  cases call with
  | none => exact ⟨fun _ => rfl, fun image h => absurd h.symm (Option.some_ne_none image)⟩
  | some r => exact h r

end Telling

/-- A class that has the fields it needs makes an entry. -/
theorem make_verified (hverified : Verified cls values) (par : Ptr) (H : Host) (k : Nat) :
    ∃ name make, (Directive.mk cls par values).make H k = some (name, make) := by
  have hneeds : ∀ i ∈ cls.needs, ∃ v, values i = some v := fun i hi =>
    Option.ne_none_iff_exists'.mp (hverified i hi)
  cases cls with
  | f =>
    obtain ⟨name, hname⟩ := hneeds 0 (by decide)
    obtain ⟨actual, hactual⟩ := hneeds 1 (by decide)
    exact ⟨name, newFile H k name actual par, by simp only [Directive.make, hname, hactual]⟩
  | d =>
    obtain ⟨name, hname⟩ := hneeds 0 (by decide)
    exact ⟨name, newDir H k (some name) par, by simp only [Directive.make, hname]⟩
  | i =>
    obtain ⟨name, hname⟩ := hneeds 0 (by decide)
    obtain ⟨target, htarget⟩ := hneeds 1 (by decide)
    exact ⟨name, newIndir H k name target par, by simp only [Directive.make, hname, htarget]⟩
  | v =>
    obtain ⟨name, hname⟩ := hneeds 0 (by decide)
    obtain ⟨offset, hoffset⟩ := hneeds 1 (by decide)
    obtain ⟨size, hsize⟩ := hneeds 4 (by decide)
    refine ⟨name, newVirt H k name (atoi offset % wordSize).toNat (atoi size % wordSize).toNat par, ?_⟩
    simp only [Directive.make, hname, hoffset, hsize]

/-- A directive with a field missing makes nothing. -/
theorem make_unverified (hnot : ¬ Verified cls values) (par : Ptr) (H : Host) (k : Nat) :
    (Directive.mk cls par values).make H k = none := by
  rw [Option.eq_none_iff_forall_ne_some]
  rintro ⟨name, make⟩ hmake
  refine hnot ?_
  intro i hi
  rw [Directive.make] at hmake
  split at hmake
  next hcls hname hactual =>
    obtain rfl : cls = .f := hcls
    rcases List.mem_pair.mp hi with rfl | rfl
    · exact Option.ne_none_iff_exists'.mpr ⟨_, hname⟩
    · exact Option.ne_none_iff_exists'.mpr ⟨_, hactual⟩
  next hcls hname =>
    obtain rfl : cls = .d := hcls
    obtain rfl := List.mem_singleton.mp hi
    exact Option.ne_none_iff_exists'.mpr ⟨_, hname⟩
  next hcls hname htarget =>
    obtain rfl : cls = .i := hcls
    rcases List.mem_pair.mp hi with rfl | rfl
    · exact Option.ne_none_iff_exists'.mpr ⟨_, hname⟩
    · exact Option.ne_none_iff_exists'.mpr ⟨_, htarget⟩
  next hcls hname hoffset hsize =>
    obtain rfl : cls = .v := hcls
    rcases List.mem_cons.mp hi with rfl | hi
    · exact Option.ne_none_iff_exists'.mpr ⟨_, hname⟩
    · rcases List.mem_pair.mp hi with rfl | rfl
      · exact Option.ne_none_iff_exists'.mpr ⟨_, hoffset⟩
      · exact Option.ne_none_iff_exists'.mpr ⟨_, hsize⟩
  next => cases hmake

/-- Only directories go on with their contents. -/
theorem inside_none (h : contents values cls = none) (nd : Ptr) (q : Parser) :
    (Directive.mk cls par values).inside sub nd q = some q := by
  cases cls with
  | d =>
    have hnone : values 1 = none := h
    simp only [Directive.inside, hnone]
  | f => rfl
  | i => rfl
  | v => rfl

/-- A directory goes on with a parse of its contents. -/
theorem inside_some {raw : CStr} (h : contents values cls = some raw) (nd : Ptr) (q : Parser) :
    (Directive.mk cls par values).inside sub nd q = sub (sourceString raw) nd q := by
  obtain ⟨rfl, hraw⟩ := contents_some h
  simp only [Directive.inside, hraw]

/-- `confirm_common` complains of letters that are no permissions, and goes on. -/
theorem confirmCommon_tells (H : Host) (k : Nat) (name : CStr) (values : Values) (nd : Ptr) (p : Parser) :
    Tells id (confirmCommon H k ⟨name, values 2, values 3⟩ nd p)
      (Builder.confirmCommon H k ⟨name, values 2, values 3⟩ nd p.image) p (complains values) := by
  rw [confirmCommon]
  refine ⟨fun hy => by rw [hy]; rfl, fun image hy => ⟨_, by rw [hy]; rfl, rfl, _, rfl, ?_⟩⟩
  rw [complains, Ne, List.map_eq_nil_iff]
  cases values 2 with
  | none => exact ⟨fun h => absurd h Bool.false_ne_true, fun h => absurd rfl h⟩
  | some perm =>
    rw [Option.any_some, decide_eq_true_eq, Option.toList_some, List.flatMap_singleton]

/-- A directive that is verified, given what becomes of its contents. -/
theorem confirmDirective_tells (H : Host) (k : Nat) (sub : Source → Ptr → Parser → Option Parser) (dir : Ptr)
    (inner : Items) (hverified : Verified cls values)
    (hinside : ∀ nd q,
      Tells id ((Directive.mk cls dir values).inside sub nd q) (inner.build H k nd q.image) q e)
    (p : Parser) : Tells (true, ·) (confirmDirective H k sub ⟨cls, dir, values⟩ p)
      ((Items.entry cls values hverified inner .done).build H k dir p.image) p (complains values || e) := by
  obtain ⟨name, make, hmake⟩ := make_verified hverified dir H k
  rw [confirmDirective_some hmake]
  simp only [Items.build, hmake, Option.bind_eq_bind, Option.bind_some]
  refine tells_call ?_
  intro r
  have hcommon := confirmCommon_tells H k name values r.2 { p with image := r.1 }
  refine Tells.bind (p := p) hcommon ?_
  intro q
  have hin := (hinside r.2 q).bind (g := (true, ·)) (c := fun q => some (true, q)) (d := some) fun q' =>
    tells_some _ q'
  rw [Bool.or_false] at hin
  rw [Option.map_eq_bind]
  exact hin

/-- The first entry, and then the rest. -/
theorem build_append (hverified : Verified cls values) (inner rest : Items) (dir : Ptr) (s : Image) :
    (Items.entry cls values hverified inner rest).build H k dir s =
      ((Items.entry cls values hverified inner .done).build H k dir s).bind
        fun s => rest.build H k dir s := by
  simp only [Items.build, Option.bind_eq_bind, Option.bind_assoc, Option.bind_some]

-- ---------------------------------------------------------------------------
-- parse_directory
-- ---------------------------------------------------------------------------

/-- The bracket at which the fields ended. -/
theorem expects_close (t : List UInt8) : Expects False ']' (']'.toUInt8 :: t) t false := by
  refine .found (.stop fun b hb => ?_)
  obtain rfl := Option.some.inj hb
  exact ⟨by decide, by decide⟩

/-- A round at a directive whose class is confirmed, and the others. -/
theorem directory_entry {src₁ : Source} {p₁ : Parser} {f : Parser → Bool × Parser} {b : Bool}
    {y : Option Image}
    {rest : Items} {e₁ e₂ : Bool} (hmove : Moves src p (']'.toUInt8 :: t') e src₁ p₁)
    (hround : directoryBody H k sub dir (src, p) =
      goOn ((confirmDirective H k sub ⟨cls, dir, values⟩ p₁).bind fun r =>
        expect ']' src₁ (if r.1 then r.2 else r.2.error (.unverified (code cls.mark)))))
    (hf : ∀ q, f q = (b, q))
    (hconfirm : Tells f (confirmDirective H k sub ⟨cls, dir, values⟩ p₁) y p₁ e₁) {m : Nat}
    (hothers : ∀ (s : Source) (q : Parser), s.file = src.file → s.Stands t' →
      Tells id (iterate (directoryBody H k sub dir) m (s, q)).join (rest.build H k dir q.image) q e₂) :
    Tells id (iterate (directoryBody H k sub dir) (m + 1) (src, p)).join
      (y.bind fun s => rest.build H k dir s) p
      (e || (e₁ || (!b) || e₂)) := by
  obtain ⟨hnone, hsome⟩ := hconfirm
  cases y with
  | none =>
    rw [hnone rfl] at hround
    rw [iterate_succ_inr hround]
    exact ⟨fun _ => rfl, fun image h => absurd h.symm (Option.some_ne_none image)⟩
  | some image =>
    obtain ⟨q, hq, himage, hnotes⟩ := hsome image rfl
    rw [hq, hf, Option.bind_some] at hround
    have hq' : ∃ q', (if b then q else q.error (.unverified (code cls.mark))) = q' ∧ q'.image = q.image ∧
        Notes q q' (!b) := by
      cases b with
      | true => exact ⟨q, rfl, rfl, notes_nothing rfl⟩
      | false => exact ⟨_, rfl, rfl, notes_error q _⟩
    obtain ⟨q', hq', himage', hnotes'⟩ := hq'
    obtain ⟨s, q'', hexpect, hmove'⟩ := expect_moves (by decide) hmove.stands (expects_close t') q'
    rw [hq', hexpect] at hround
    rw [iterate_succ_inl hround, Option.bind_some]
    have hrest := hothers s q'' (hmove'.file.trans hmove.file) hmove'.stands
    rw [hmove'.image, himage', himage] at hrest
    refine ⟨hrest.1, ?_⟩
    intro image' h'
    obtain ⟨p', hp', himage'', hnotes''⟩ := hrest.2 image' h'
    refine ⟨p', hp', himage'', hmove.notes.trans ?_⟩
    have hall := ((hnotes.trans hnotes').trans hmove'.notes).trans hnotes''
    rwa [Bool.or_false] at hall

/-- The loop goes on as the calls for the directives do, if the contents are parsed so. -/
theorem directory_tells {n : Nat} {items : Items} (hdescribes : Describes lax file t items e)
    (hsub : ∀ raw : CStr, raw.chars.length < n → ∀ items e, Describes lax false raw.chars items e →
      ∀ nd q, Tells id (sub (sourceString raw) nd q) (items.build H k nd q.image) q e)
    (hfile : src.file = file) (h : src.Stands t) (hn : t.length ≤ n) {m : Nat} (hm : t.length < m)
    (p : Parser) :
    Tells id (iterate (directoryBody H k sub dir) m (src, p)).join (items.build H k dir p.image) p e := by
  induction hdescribes generalizing src m p with
  | stop hpeeks ho =>
    obtain ⟨m, rfl⟩ : ∃ j, m = j + 1 := ⟨m - 1, by omega⟩
    subst hfile
    obtain ⟨p', hround, himage, hnotes⟩ := directoryBody_end h hpeeks ho H k sub dir p
    rw [iterate_succ_inr hround]
    exact ⟨fun h => absurd h (Option.some_ne_none _),
      fun image h => ⟨p', rfl, himage.trans (Option.some.inj h), hnotes⟩⟩
  | @unverified file t t' cls values rest _ _ _ hdeclares hnot _ ih =>
    obtain ⟨m, rfl⟩ : ∃ j, m = j + 1 := ⟨m - 1, by omega⟩
    subst hfile
    have hlt := hdeclares.length_lt
    obtain ⟨src₁, p₁, hmove, hround⟩ := directoryBody_moves h hdeclares H k sub dir p
    have hconfirm :
        Tells (false, ·) (confirmDirective H k sub ⟨cls, dir, values⟩ p₁) (some p₁.image) p₁ false := by
      rw [confirmDirective_none (make_unverified hnot dir H k)]
      exact tells_some (false, ·) p₁
    have hall := directory_entry hmove hround (fun _ => rfl) hconfirm fun s q hsame hs =>
      ih hsame hs (by omega) (by omega : _ < m) q
    rw [hmove.image] at hall
    simpa only [Bool.not_false, Bool.or_true, Bool.true_or, Option.bind_some] using hall
  | @plain file t t' cls values rest _ _ hdeclares hverified _ hcontents _ ih =>
    obtain ⟨m, rfl⟩ : ∃ j, m = j + 1 := ⟨m - 1, by omega⟩
    subst hfile
    have hlt := hdeclares.length_lt
    obtain ⟨src₁, p₁, hmove, hround⟩ := directoryBody_moves h hdeclares H k sub dir p
    have hconfirm := confirmDirective_tells H k sub dir .done
      hverified (fun nd q => by rw [inside_none hcontents]; exact tells_some id q) p₁
    have hall := directory_entry hmove hround (fun _ => rfl) hconfirm fun s q hsame hs =>
      ih hsame hs (by omega) (by omega : _ < m) q
    rw [hmove.image, ← build_append] at hall
    simpa only [Bool.not_true, Bool.or_false, Bool.or_assoc] using hall
  | @directory file t t' cls values raw inner rest _ _ _ hdeclares hverified _ hcontents hinner _ _ ih =>
    obtain ⟨m, rfl⟩ : ∃ j, m = j + 1 := ⟨m - 1, by omega⟩
    subst hfile
    have hlt := hdeclares.length_lt
    have hraw := hdeclares.values_short (contents_some hcontents).2
    obtain ⟨src₁, p₁, hmove, hround⟩ := directoryBody_moves h hdeclares H k sub dir p
    have hconfirm := confirmDirective_tells H k sub dir inner hverified
      (fun nd q => by rw [inside_some hcontents]; exact hsub raw (by omega) inner _ hinner nd q) p₁
    have hall := directory_entry hmove hround (fun _ => rfl) hconfirm fun s q hsame hs =>
      ih hsame hs (by omega) (by omega : _ < m) q
    rw [hmove.image, ← build_append] at hall
    simpa only [Bool.not_true, Bool.or_false, Bool.or_assoc] using hall

theorem stands_string (raw : CStr) : (sourceString raw).Stands raw.chars :=
  .inl ⟨Int.negSucc_lt_zero 0, rfl⟩

theorem stands_file (text : List UInt8) : (sourceFile text).Stands text :=
  .inl ⟨Int.negSucc_lt_zero 0, rfl⟩

/-- By induction on the depth: contents are shorter than the text that they are in. -/
theorem parseDirectory_tells (H : Host) (k : Nat) {items : Items} {depth : Nat}
    (hdescribes : Describes lax src.file t items e)
    (h : src.Stands t) (hdepth : t.length < depth) (dir : Ptr) (p : Parser) :
    Tells id (parseDirectory H k depth src dir p) (items.build H k dir p.image) p e := by
  induction depth generalizing src t items e dir p with
  | zero => exact absurd hdepth (Nat.not_lt_zero _)
  | succ depth ih =>
    refine directory_tells (n := depth) hdescribes (fun raw hraw inner e₁ hinner nd q => ?_) rfl h
      (Nat.le_of_lt_succ hdepth) h.rounds p
    exact ih hinner (stands_string raw) hraw nd q

/-- A parse that returns has read a sequence of directives, by induction on the bound. -/
theorem parseDirectory_reads {depth : Nat} (h : src.Stands t)
    (hparse : parseDirectory H k depth src dir p = some q) :
    ∃ items e, Describes True src.file t items e := by
  induction depth generalizing src t dir p q with
  | zero => cases hparse
  | succ depth ih =>
    obtain ⟨y, hrun, hy⟩ := Option.bind_eq_some_iff.mp hparse
    refine iterate_invariant
      (fun x => x.1.file = src.file ∧ ∃ t', x.1.Stands t' ∧ ∀ items e, Describes True src.file t' items e →
        ∃ items e, Describes True src.file t items e)
      (fun y => ∀ q, y = some q → ∃ items e, Describes True src.file t items e)
      ?_ ?_ ⟨rfl, t, h, fun items e h => ⟨items, e, h⟩⟩ hrun q hy
    · rintro ⟨s, p₁⟩ ⟨s', p₁'⟩ ⟨hsame, t₁, hs, hback⟩ hround
      have hsame : s.file = src.file := hsame
      rcases directoryBody_reads hs (by rintro ⟨⟩) hround with
        ⟨o, t', hpeeks, ho⟩ | ⟨cls, values, t', e, hdeclares⟩
      · obtain ⟨p', hend, -⟩ := directoryBody_end hs hpeeks ho H k (parseDirectory H k depth) dir p₁
        cases hend.symm.trans hround
      · obtain ⟨src₁, p₂, hmove, hgo⟩ :=
          directoryBody_moves hs hdeclares H k (parseDirectory H k depth) dir p₁
        rw [hgo] at hround
        cases hconfirm : confirmDirective H k (parseDirectory H k depth) ⟨cls, dir, values⟩ p₂ with
        | none =>
          rw [hconfirm] at hround
          cases hround
        | some r =>
          rw [hconfirm, Option.bind_some] at hround
          obtain ⟨s₂, q₂, hexpect, hmove'⟩ := expect_moves (by decide) hmove.stands (expects_close t')
            (if r.1 then r.2 else r.2.error (.unverified (code cls.mark)))
          rw [hexpect] at hround
          obtain ⟨rfl, rfl⟩ := Prod.mk.inj (Sum.inl.inj hround)
          refine ⟨(hmove'.file.trans hmove.file).trans hsame, t', hmove'.stands, ?_⟩
          intro items e' hrest
          rw [hsame] at hdeclares
          by_cases hverified : Verified cls values
          · cases hcontents : contents values cls with
            | none => exact hback _ _ (.plain hdeclares hverified (.inl trivial) hcontents hrest)
            | some raw =>
              obtain ⟨name, make, hmake⟩ := make_verified hverified dir H k
              rw [confirmDirective_some hmake] at hconfirm
              obtain ⟨v, -, hconfirm⟩ := Option.bind_eq_some_iff.mp hconfirm
              obtain ⟨q₃, -, hconfirm⟩ := Option.bind_eq_some_iff.mp hconfirm
              obtain ⟨q₄, hinside, -⟩ := Option.map_eq_some_iff.mp hconfirm
              rw [inside_some hcontents] at hinside
              obtain ⟨inner, e₁, hinner⟩ := ih (stands_string raw) hinside
              exact hback _ _ (.directory hdeclares hverified (.inl trivial) hcontents hinner hrest)
          · exact hback _ _ (.unverified trivial hdeclares hverified hrest)
    · rintro ⟨s, p₁⟩ y ⟨hsame, t₁, hs, hback⟩ hleave q rfl
      have hsame : s.file = src.file := hsame
      rcases directoryBody_reads hs (by rintro ⟨⟩) hleave with
        ⟨o, t', hpeeks, ho⟩ | ⟨cls, values, t', e, hdeclares⟩
      · rw [hsame] at hpeeks ho
        exact hback _ _ (.stop hpeeks ho)
      · obtain ⟨src₁, p₂, -, hgo⟩ := directoryBody_moves hs hdeclares H k (parseDirectory H k depth) dir p₁
        rw [hgo] at hleave
        revert hleave
        cases (confirmDirective H k (parseDirectory H k depth) ⟨cls, dir, values⟩ p₂).bind fun r =>
          expect ']' src₁ (if r.1 then r.2 else r.2.error (.unverified (code cls.mark))) with
        | none => exact fun hleave => absurd (Sum.inr.inj hleave) (Option.some_ne_none q).symm
        | some r => exact fun hleave => by cases hleave

end Frosk.Builder.Text
