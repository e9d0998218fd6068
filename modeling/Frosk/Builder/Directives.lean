import Mathlib.Tactic
import Frosk.Builder.Lexing

/-!
# The image builder: directives

What `parse_next` makes of the tokens of one directive: the fields are stored, its class
confirms it, and the source stands behind it (`parseNext_entry`). Which tokens a field takes
is a parameter (`Sets`), as the contents of a directory end at the first brace that closes.
-/

namespace Frosk.Builder.Text

open Lib Fs

-- ---------------------------------------------------------------------------
-- Fields
-- ---------------------------------------------------------------------------

/-- `d->values[i]` is stored, if there is a value. -/
def Directive.set (d : Directive) (i : Nat) : Option CStr → Directive
  | none => d
  | some v => { d with values := Function.update d.values i (some v) }

/-- A field of a directive, behind another. -/
def word (field v : CStr) : List (List UInt8) := [mark ',', field.chars, mark '=', v.chars]

/-- A field that may be left out. -/
def option (field : CStr) : Option CStr → List (List UInt8)
  | none => []
  | some v => word field v

/-- The fields that each class has, behind the others. -/
def attr (fields : Fields) : List (List UInt8) :=
  option permField fields.perm ++ option ownerField fields.owner

/-- The start of a directive. -/
def head (cls : Class) (name : CStr) : List (List UInt8) :=
  [mark cls.mark, mark ':', mark '[', nameField.chars, mark '=', name.chars]

/-- Behind a value there is another field or the end. -/
def Behind (toks : List (List UInt8)) : Prop :=
  ∃ c rest, toks = mark c :: rest ∧ (c = ',' ∨ c = ']')

/-- The same behind a field that may be left out. -/
theorem behind_option {field : CStr} {toks : List (List UInt8)} (h : Behind toks) (o : Option CStr) :
    Behind (option field o ++ toks) := by
  cases o with
  | none => exact h
  | some v => exact ⟨',', _, rfl, .inl rfl⟩

section Fields

variable {file : Bool} {src : Source} {toks vtoks rest : List (List UInt8)} {cls : Class} {i : Nat}
  {l v : CStr} {type : Int}

/-- The value `vtoks` of a field is read, and meets `Q`. -/
def Yields (file : Bool) (vtoks rest : List (List UInt8)) (Q : CStr → Prop) : Prop :=
  ∀ src : Source, src.file = file → src.At (vtoks ++ rest) → ∃ v src' n, Q v ∧ src'.file = file ∧
    src'.At rest ∧ ∀ p, getstr [',', ']'] src p = some (v, src', p.skip n)

/-- A value is read as it is written. -/
theorem yields_word (hv : Plain v) (hrest : Behind rest) : Yields file [v.chars] rest (· = v) := by
  intro src hfile hat
  obtain ⟨c, toks, rfl, hc⟩ := hrest
  have hends : Ends [',', ']'] c := by
    rcases hc with rfl | rfl
    · exact ⟨by decide, by decide, by decide, by decide, by decide⟩
    · exact ⟨by decide, by decide, by decide, by decide, by decide⟩
  obtain ⟨src', n, hfile', hat', hget⟩ := getstr_word hends hv hat
  exact ⟨v, src', n, rfl, hfile'.trans hfile, hat', hget⟩

/-- A value in braces is read up to the closing brace, and spells the tokens in it. -/
theorem yields_braces {inner : List (List UInt8)} (hin : ∀ tok ∈ inner, '}'.toUInt8 ∉ tok)
    (hclean : ∀ tok ∈ inner, 0 ∉ tok) :
    Yields true (mark '{' :: (inner ++ [mark '}'])) rest fun raw => Spells inner raw.chars := by
  intro src hfile hat
  rw [List.cons_append, List.append_assoc] at hat
  obtain ⟨raw, src', n, hraw, hfile', hat', hget⟩ := getstr_braces [',', ']'] hfile hin hclean hat
  exact ⟨raw, src', n, hraw, hfile'.trans hfile, hat', hget⟩

/-- The name of a field is in the class, at `i`. -/
def Known (cls : Class) (l : CStr) (i : Nat) : Prop :=
  cls.fields.findIdx? (fun field => hostStrcmp l field = 0) = some i

instance : Decidable (Known cls l i) := inferInstanceAs (Decidable (_ = some i))

/-- One field, behind the comma. -/
theorem parseField_spec (type : Int) {Q : CStr → Prop} (hl : Plain l) (hknown : Known cls l i)
    (hvalue : Yields file vtoks rest Q) (hfile : src.file = file)
    (hat : src.At (l.chars :: mark '=' :: (vtoks ++ rest))) :
    ∃ v src' n, Q v ∧ src'.file = file ∧ src'.At rest ∧ ∀ d p, d.cls = cls →
      parseField type true d src p = some (d.set i (some v), src', p.skip n) := by
  have hends : Ends ['=', ']'] '=' := ⟨by decide, by decide, by decide, by decide, by decide⟩
  obtain ⟨src₁, n₁, hfile₁, hat₁, hleft⟩ := getstr_word hends hl hat
  obtain ⟨src₂, n₂, hfile₂, hat₂, heq⟩ := expect_token (by decide) ⟨by decide, by decide⟩ hat₁
  obtain ⟨v, src₃, n₃, hQ, hfile₃, hat₃, hright⟩ := hvalue src₂ ((hfile₂.trans hfile₁).trans hfile) hat₂
  refine ⟨v, src₃, n₁ + n₂ + n₃, hQ, hfile₃, hat₃, ?_⟩
  intro d p hd
  have hset : setField d l v = some (d.set i (some v)) := by
    have hknown' : Known d.cls l i := hd ▸ hknown
    rw [setField, hknown']
    rfl
  simp only [parseField, if_true, Option.bind_eq_bind, Option.bind_some, hleft, heq, hright, hset,
    skip_skip]

/-- A field behind a comma. -/
theorem parseField_comma (d : Directive) (src : Source) (p : Parser) :
    parseField type false d src p =
      (expect ',' src p).bind fun r => parseField type true d r.1 r.2 := by
  simp only [parseField, Bool.false_eq_true, if_false, if_true, Option.bind_eq_bind, Option.bind_some]

/-- At the closing bracket the loop over the fields ends. -/
theorem fieldBody_end (h : src.At (mark ']' :: toks)) :
    ∃ src' n, src'.file = src.file ∧ src'.At (mark ']' :: toks) ∧ ∀ d p first,
      fieldBody type (d, src, p, first) = .inr (some (d, src', p.skip n)) := by
  obtain ⟨src', n, hfile, hat, hpeek⟩ := peekc_token h ⟨by decide, by decide⟩ (by decide)
  refine ⟨src', n, hfile, hat, ?_⟩
  intro d p first
  have hcode : src.char ']'.toUInt8 = code ']' := (char_eq_code (by decide)).mpr rfl
  simp only [fieldBody, hpeek, hcode, if_true]

/-- A round of the loop, where another field comes. -/
theorem fieldBody_field (type : Int) {b : UInt8} {tok : List UInt8} (h : src.At (tok :: toks))
    (hhead : tok.head? = some b) (hb : Visible b) (hlow : b.toNat < 128) (hne : b ≠ ']'.toUInt8) :
    ∃ src' n, src'.file = src.file ∧ src'.At (tok :: toks) ∧ ∀ d p first r,
      parseField type first d src' (p.skip n) = some r →
      fieldBody type (d, src, p, first) = .inl (r.1, r.2.1, r.2.2, false) := by
  obtain ⟨w, rfl⟩ := List.head?_eq_some_iff.mp hhead
  obtain ⟨src', n, hfile, hat, hpeek⟩ := peekc_token h hb hlow
  refine ⟨src', n, hfile, hat, ?_⟩
  intro d p first r hr
  have hcode : src.char b ≠ code ']' := by
    rw [Ne, char_eq_code (by decide)]
    exact hne
  simp only [fieldBody, hpeek, if_neg hcode, hr]

/-- The tokens `toks` set the field `i`, to something that `Q` holds of, in at most one round. -/
def Sets (type : Int) (cls : Class) (file : Bool) (toks rest : List (List UInt8)) (i : Nat)
    (Q : Option CStr → Prop) : Prop :=
  ∀ src : Source, src.file = file → src.At (toks ++ rest) → ∃ o src' n j, j ≤ 1 ∧ Q o ∧
    src'.file = file ∧ src'.At rest ∧ ∀ d p m, d.cls = cls →
      iterate (fieldBody type) (m + j) (d, src, p, false) =
        iterate (fieldBody type) m (d.set i o, src', p.skip n, false)

/-- No field is set by nothing. -/
theorem sets_none : Sets type cls file [] rest i (· = none) := by
  intro src hfile hat
  exact ⟨none, src, 0, 0, Nat.zero_le _, rfl, hfile, hat, fun _ _ _ _ => rfl⟩

/-- A comma, a name that the class knows, and a value set one field. -/
theorem sets_value {Q : CStr → Prop} (hl : Plain l) (hknown : Known cls l i)
    (hvalue : Yields file vtoks rest Q) :
    Sets type cls file (mark ',' :: l.chars :: mark '=' :: vtoks) rest i
      fun o => ∃ v, o = some v ∧ Q v := by
  intro src hfile hat
  obtain ⟨src₁, n₁, hfile₁, hat₁, hbody⟩ := fieldBody_field type hat rfl ⟨by decide, by decide⟩
    (by decide) (by decide)
  obtain ⟨src₂, n₂, hfile₂, hat₂, hcomma⟩ := expect_token (by decide) ⟨by decide, by decide⟩ hat₁
  obtain ⟨v, src₃, n₃, hQ, hfile₃, hat₃, hfield⟩ := parseField_spec type hl hknown hvalue
    ((hfile₂.trans hfile₁).trans hfile) hat₂
  refine ⟨some v, src₃, n₁ + n₂ + n₃, 1, le_rfl, ⟨v, rfl, hQ⟩, hfile₃, hat₃, ?_⟩
  intro d p m hd
  have hcall : parseField type false d src₁ (p.skip n₁) =
      some (d.set i (some v), src₃, p.skip (n₁ + n₂ + n₃)) := by
    rw [parseField_comma, hcomma, Option.bind_some, hfield d _ hd, skip_skip, skip_skip, Nat.add_assoc]
  exact iterate_succ_inl (hbody d p false _ hcall) m

/-- So does a value of one word. -/
theorem sets_word (hl : Plain l) (hknown : Known cls l i) (hv : Plain v) (hrest : Behind rest) :
    Sets type cls file (word l v) rest i (· = some v) := by
  intro src hfile hat
  have hsets : Sets type cls file (word l v) rest i _ :=
    sets_value hl hknown (yields_word hv hrest)
  obtain ⟨o, src', n, j, hj, ⟨v', rfl, rfl⟩, hrest'⟩ := hsets src hfile hat
  exact ⟨some v', src', n, j, hj, rfl, hrest'⟩

/-- A field that may be left out is set when it is there. -/
theorem sets_option {o : Option CStr} (hl : Plain l) (hknown : Known cls l i) (ho : ∀ v ∈ o, Plain v)
    (hrest : Behind rest) : Sets type cls file (option l o) rest i (· = o) := by
  cases o with
  | none => exact sets_none
  | some v => exact sets_word hl hknown (ho v rfl) hrest

-- ---------------------------------------------------------------------------
-- parse_next
-- ---------------------------------------------------------------------------

/-- The directive with these fields. -/
def made (cls : Class) (par : Ptr) (name : CStr) (second : Option CStr) (fields : Fields) : Directive :=
  (((Directive.mk cls par fun _ => none).set 0 (some name)).set 1 second).set 2 fields.perm |>.set 3
    fields.owner

theorem set_cls (d : Directive) (i : Nat) (o : Option CStr) : (d.set i o).cls = d.cls := by
  cases o <;> rfl

theorem set_par (d : Directive) (i : Nat) (o : Option CStr) : (d.set i o).par = d.par := by
  cases o <;> rfl

/-- A field that is set twice keeps the first value. -/
theorem set_values (d : Directive) (i j : Nat) (o : Option CStr) :
    (d.set i o).values j = if j = i then o.or (d.values i) else d.values j := by
  cases o with
  | none =>
    by_cases hj : j = i
    · rw [hj]
      simp [Directive.set]
    · simp [Directive.set, hj]
  | some v => simp [Directive.set, Function.update_apply]

/-- What a directive that is read consists of. -/
theorem made_eq (cls : Class) (par : Ptr) (name : CStr) (second : Option CStr) (fields : Fields) :
    (made cls par name second fields).cls = cls ∧ (made cls par name second fields).par = par ∧
    (made cls par name second fields).values 0 = some name ∧
    (made cls par name second fields).values 1 = second ∧
    (made cls par name second fields).values 2 = fields.perm ∧
    (made cls par name second fields).values 3 = fields.owner := by
  simp [made, set_cls, set_par, set_values]

/-- What is written in the fields that each class has. -/
structure CleanFields (fields : Fields) : Prop where
  name  : Plain fields.name
  perm  : ∀ v ∈ fields.perm, Plain v ∧ unknownPerms v = []
  owner : ∀ v ∈ fields.owner, Plain v

/-- The classes of files, directories and indirect entries have the fields of each. -/
theorem known_common (hcls : cls ≠ .v) :
    Known cls nameField 0 ∧ Known cls permField 2 ∧ Known cls ownerField 3 := by
  cases cls with
  | v => exact absurd rfl hcls
  | f => decide
  | d => decide
  | i => decide

/-- The fields of a directive are read, and the end of it is next. -/
theorem fields_loop (type : Int) (hcls : cls ≠ .v) {second : List (List UInt8)} {fields : Fields}
    {Q : Option CStr → Prop} (hclean : CleanFields fields) {name : CStr} (hname : Plain name)
    (hsecond : Sets type cls file second (attr fields ++ mark ']' :: rest) 1 Q)
    (hbehind : Behind (second ++ (attr fields ++ mark ']' :: rest))) (hfile : src.file = file)
    (hat : src.At (nameField.chars :: mark '=' :: name.chars ::
      (second ++ (attr fields ++ mark ']' :: rest)))) :
    ∃ o src' n, Q o ∧ src'.file = file ∧ src'.At (mark ']' :: rest) ∧ ∀ par p,
      (iterate (fieldBody type) src.rounds (⟨cls, par, fun _ => none⟩, src, p, true)).join =
        some (made cls par name o fields, src', p.skip n) := by
  obtain ⟨hk₀, hk₂, hk₃⟩ := known_common hcls
  have hend : Behind (mark ']' :: rest) := ⟨']', rest, rfl, .inr rfl⟩
  have hrounds : 5 ≤ src.rounds := by
    obtain ⟨t, hholds, hspells⟩ := hat
    cases hspells with
    | @cons ws _ _ t _ _ =>
      have hlong := hholds.rounds
      have hlen : nameField.chars.length = 4 := rfl
      simp only [List.length_append] at hlong
      omega
  have hfirst : nameField.chars.head? = some 'n'.toUInt8 := by decide
  obtain ⟨src₁, n₁, hfile₁, hat₁, hbody⟩ := fieldBody_field type hat hfirst ⟨by decide, by decide⟩
    (by decide) (by decide)
  obtain ⟨v, src₂, n₂, hv, hfile₂, hat₂, hfield⟩ := parseField_spec type (by decide) hk₀
    (yields_word hname hbehind) (hfile₁.trans hfile) hat₁
  rw [hv] at hfield
  obtain ⟨o, src₃, n₃, j₃, hj₃, hQ, hfile₃, hat₃, hloop₃⟩ := hsecond src₂ hfile₂ hat₂
  rw [attr, List.append_assoc] at hat₃
  obtain ⟨_, src₄, n₄, j₄, hj₄, rfl, hfile₄, hat₄, hloop₄⟩ := sets_option (by decide) hk₂
    (fun v hv => (hclean.perm v hv).1) (behind_option hend fields.owner) src₃ hfile₃ hat₃
  obtain ⟨_, src₅, n₅, j₅, hj₅, rfl, hfile₅, hat₅, hloop₅⟩ := sets_option (by decide) hk₃ hclean.owner
    hend src₄ hfile₄ hat₄
  obtain ⟨src₆, n₆, hfile₆, hat₆, hleave⟩ := fieldBody_end hat₅
  refine ⟨o, src₆, n₁ + n₂ + n₃ + n₄ + n₅ + n₆, hQ, hfile₆.trans hfile₅, hat₆, ?_⟩
  intro par p
  have hall : iterate (fieldBody type) (1 + j₅ + j₄ + j₃ + 1) (⟨cls, par, fun _ => none⟩, src, p, true) =
      some (some (made cls par name o fields, src₆, p.skip (n₁ + n₂ + n₃ + n₄ + n₅ + n₆))) := by
    have hcall := hfield ⟨cls, par, fun _ => none⟩ (p.skip n₁) rfl
    rw [iterate_succ_inl (hbody _ p true _ hcall), hloop₃ _ _ _ (set_cls ..),
      hloop₄ _ _ _ (by simp only [set_cls]), hloop₅ _ _ _ (by simp only [set_cls]),
      iterate_succ_inr (hleave _ _ _)]
    simp only [skip_skip, Nat.add_assoc]
    rfl
  rw [iterate_mono hall (by omega), Option.join_some]

/-- Each class is told from its letter. -/
theorem getDirective_mark (cls : Class) (par : Ptr) :
    getDirective (code cls.mark) par = some ⟨cls, par, fun _ => none⟩ := by
  cases cls <;> rfl

theorem mark_visible_cls (cls : Class) : Visible cls.mark.toUInt8 := by
  cases cls <;> exact ⟨by decide, by decide⟩

theorem mark_ascii_cls (cls : Class) : cls.mark.toNat < 128 := by
  cases cls <;> decide

/-- A directive is read whole, and confirmed. -/
theorem parseNext_entry (hcls : cls ≠ .v) {second : List (List UInt8)} {fields : Fields}
    {Q : Option CStr → Prop} (hclean : CleanFields fields) {name : CStr} (hname : Plain name)
    (hsecond : Sets (code cls.mark) cls file second (attr fields ++ mark ']' :: rest) 1 Q)
    (hbehind : Behind (second ++ (attr fields ++ mark ']' :: rest))) (hfile : src.file = file)
    (hat : src.At (head cls name ++ (second ++ (attr fields ++ mark ']' :: rest)))) :
    ∃ o src' n n', Q o ∧ src'.file = file ∧ src'.At rest ∧ ∀ H k sub par p,
      parseNext H k sub src par p =
        (confirmDirective H k sub (made cls par name o fields) (p.skip n)).map fun r =>
          (src', (if r.1 then r.2 else r.2.error (.unverified (code cls.mark))).skip n') := by
  obtain ⟨t, n₁, hspells, htype⟩ := nextc_token hat (mark_visible_cls cls)
  obtain ⟨src₂, n₂, hfile₂, hat₂, hcolon⟩ := expect_token (by decide) ⟨by decide, by decide⟩
    (at_of_spells src hspells)
  obtain ⟨src₃, n₃, hfile₃, hat₃, hopen⟩ := expect_token (by decide) ⟨by decide, by decide⟩ hat₂
  obtain ⟨o, src₄, n₄, hQ, hfile₄, hat₄, hloop⟩ := fields_loop (code cls.mark) hcls hclean hname hsecond
    hbehind ((hfile₃.trans hfile₂).trans hfile) hat₃
  obtain ⟨src₅, n₅, hfile₅, hat₅, hclose⟩ := expect_token (by decide) ⟨by decide, by decide⟩ hat₄
  refine ⟨o, src₅, n₁ + n₂ + n₃ + n₄, n₅, hQ, hfile₅.trans hfile₄, hat₅, ?_⟩
  intro H k sub par p
  have hcode : src.char cls.mark.toUInt8 = code cls.mark := (char_eq_code (mark_ascii_cls cls)).mpr rfl
  simp only [parseNext, htype, List.nil_append, hcolon, hopen, hcode, getDirective_mark, hloop, hclose,
    Option.bind_eq_bind, Option.bind_some, skip_skip, Option.map_eq_bind]
  rfl

/-- Nothing begins with a brace that closes. -/
theorem parseNext_stray (hat : src.At (mark '}' :: toks)) (H : Host) (k : Nat)
    (sub : Source → Ptr → Parser → Option Parser) (par : Ptr) (p : Parser) :
    parseNext H k sub src par p = none := by
  obtain ⟨t, n, -, htype⟩ := nextc_token hat ⟨by decide, by decide⟩
  have hcode : src.char '}'.toUInt8 = code '}' := (char_eq_code (by decide)).mpr rfl
  have hnone : getDirective (code '}') par = none := rfl
  simp only [parseNext, htype, hcode, hnone, Option.bind_eq_bind, Option.bind_some, Option.bind_none]
  cases expect ':' (src.at ([] ++ t)) (p.skip n) with
  | none => rfl
  | some r => cases expect '[' r.1 r.2 <;> simp

/-- A round of the loop of `parse_directory`, before the end. -/
theorem directoryBody_mark {c : Char} (hat : src.At (mark c :: toks)) (hvisible : Visible c.toUInt8)
    (hascii : c.toNat < 128) :
    ∃ src' n, src'.file = src.file ∧ src'.At (mark c :: toks) ∧ ∀ H k sub dir p,
      (parseNext H k sub src' dir (p.skip n) = none → directoryBody H k sub dir (src, p) = .inr none) ∧
      ∀ r, parseNext H k sub src' dir (p.skip n) = some r →
        directoryBody H k sub dir (src, p) = .inl r := by
  have hlow : c.toUInt8.toNat < 128 := by
    rw [toNat_toUInt8 hascii]
    exact hascii
  obtain ⟨src', n, hfile, hat', hpeek⟩ := peekc_token hat hvisible hlow
  refine ⟨src', n, hfile, hat', ?_⟩
  intro H k sub dir p
  have heof : src.char c.toUInt8 ≠ eof := by
    rw [char_ascii hlow]
    exact (Int.negSucc_lt_zero 0).trans_le (Int.natCast_nonneg _) |>.ne'
  constructor
  · intro hnone
    simp only [directoryBody, hpeek, if_neg heof, hnone]
  · intro r hr
    simp only [directoryBody, hpeek, if_neg heof, hr]

end Fields

end Frosk.Builder.Text
