import Mathlib.Tactic
import Frosk.Builder.Grammar

/-!
# The image builder: reading by the grammar

`nextc`, `expect`, `peekc` and `getstr` return exactly where the grammar has the text that is
still to be read, and stand behind it then (`Moves`). For each there is a lemma that goes from
the grammar to the call, and one that goes back (`nextc_reads`, `getstr_reads`).
-/

namespace Frosk.Builder.Text

open Lib Fs

variable {src src' src₁ : Source} {p p' p₁ : Parser} {t t' r : List UInt8} {b : UInt8} {c : Char}
  {o : Option UInt8} {e e' : Bool} {lax : Prop} {file : Bool}

-- ---------------------------------------------------------------------------
-- Sources
-- ---------------------------------------------------------------------------

/-- What is still to be read is `t`, and nothing was put back. -/
def Source.Fresh (src : Source) (t : List UInt8) : Prop := src.ungot < 0 ∧ src.rest = t

/-- What is still to be read is `t`. -/
def Source.Stands (src : Source) (t : List UInt8) : Prop :=
  src.Fresh t ∨ ∃ b, src.ungot = src.char b ∧ 0 ≤ src.char b ∧ t = b :: src.rest

/-- What a character is read as. -/
def Source.int (src : Source) (o : Option UInt8) : Int := (o.map src.char).getD eof

theorem int_congr (h : src'.file = src.file) (o : Option UInt8) : src'.int o = src.int o := by
  have hchar : src'.char = src.char := by
    funext b
    rw [Source.char, Source.char, h]
  rw [Source.int, Source.int, hchar]

/-- The loops over a source have a round for each byte that is left. -/
theorem Source.Stands.rounds (h : src.Stands t) : t.length < src.rounds := by
  unfold Source.rounds
  rcases h with ⟨-, rfl⟩ | ⟨b, -, -, rfl⟩
  · omega
  · rw [List.length_cons]
    omega

/-- `getc` reads the next byte, or the end. -/
theorem getc_spec (h : src.Stands t) :
    ∃ src', srcGetc src = (src.int t.head?, src') ∧ src'.file = src.file ∧ src'.Fresh t.tail := by
  obtain ⟨file, rest, ungot⟩ := src
  rcases h with ⟨hneg, hrest⟩ | ⟨b, hungot, hpos, rfl⟩
  · obtain rfl : rest = t := hrest
    have hneg' : ungot < 0 := hneg
    rw [srcGetc, if_pos hneg]
    cases rest with
    | nil => exact ⟨_, rfl, rfl, hneg', rfl⟩
    | cons b rest => exact ⟨_, rfl, rfl, hneg', rfl⟩
  · have hback : ¬ ungot < 0 := not_lt.mpr (hpos.trans_eq hungot.symm)
    rw [srcGetc, if_neg hback]
    exact ⟨_, Prod.ext hungot rfl, rfl, Int.negSucc_lt_zero 0, rfl⟩

/-- A mark is told by its byte. -/
theorem int_eq_code (hc : c.toNat < 128) : src.int o = code c ↔ o = some c.toUInt8 := by
  cases o with
  | none =>
    have hne : eof ≠ code c := (Int.negSucc_lt_zero 0).trans_le (Int.natCast_nonneg _) |>.ne
    exact ⟨fun h => absurd h hne, fun h => absurd h (Option.some_ne_none _).symm⟩
  | some b => exact (char_eq_code hc).trans (Option.some_inj).symm

/-- A byte stays in a comment as long as it is no end of the file. -/
theorem kept_iff (src : Source) (b : UInt8) : Kept src.file b ↔ 0 ≤ src.char b := by
  have hb := b.toNat_lt
  unfold Kept Source.char schar
  cases src.file with
  | true => simp
  | false =>
    simp only [Bool.false_eq_true, if_false, false_or]
    split_ifs with hlow
    · exact ⟨fun _ => Int.natCast_nonneg _, fun _ => hlow⟩
    · omega

theorem atEnd_iff (src : Source) (o : Option UInt8) : AtEnd src.file o ↔ src.int o = eof := by
  cases o with
  | none => exact ⟨fun _ => rfl, fun _ => .inl rfl⟩
  | some b =>
    have hb := b.toNat_lt
    have hsame : b = 0xFF ↔ b.toNat = 255 := UInt8.toNat_inj.symm
    show (some b = none ∨ src.file = false ∧ some b = some 0xFF) ↔ src.char b = -1
    unfold Source.char schar
    cases src.file with
    | true =>
      simp only [if_true, reduceCtorEq, false_and, or_false]
    | false =>
      simp only [Bool.false_eq_true, if_false, reduceCtorEq, true_and, false_or, Option.some_inj, hsame]
      split_ifs with hlow
      · rw [iff_false]
        omega
      · omega

-- ---------------------------------------------------------------------------
-- What is reported
-- ---------------------------------------------------------------------------

/-- Something was reported if `e` says so. -/
def Notes (p p' : Parser) (e : Bool) : Prop := ∃ l, p'.errors = p.errors ++ l ∧ (e = true ↔ l ≠ [])

theorem notes_nothing (h : p'.errors = p.errors) : Notes p p' false :=
  ⟨[], by rw [h, List.append_nil], by simp⟩

theorem notes_error (p : Parser) (m : Message) : Notes p (p.error m) true := ⟨_, rfl, by simp⟩

theorem Notes.trans (h : Notes p p₁ e) (h' : Notes p₁ p' e') : Notes p p' (e || e') := by
  obtain ⟨l, hl, he⟩ := h
  obtain ⟨l', hl', he'⟩ := h'
  refine ⟨l ++ l', by rw [hl', hl, List.append_assoc], ?_⟩
  rw [Bool.or_eq_true, he, he', Ne, Ne, Ne, List.append_eq_nil_iff, not_and_or]

/-- What a call leaves that read up to `t`; the image is the same. -/
structure Moves (src : Source) (p : Parser) (t : List UInt8) (e : Bool) (src' : Source) (p' : Parser) :
    Prop where
  file   : src'.file = src.file
  stands : src'.Stands t
  image  : p'.image = p.image
  notes  : Notes p p' e

/-- Two steps through the text, with the messages of both. -/
theorem Moves.trans (h : Moves src p t e src₁ p₁) (h' : Moves src₁ p₁ t' e' src' p') :
    Moves src p t' (e || e') src' p' :=
  ⟨h'.file.trans h.file, h'.stands, h'.image.trans h.image, h.notes.trans h'.notes⟩

/-- What a call leaves that has just read a character. -/
structure Passes (src : Source) (p : Parser) (t : List UInt8) (src' : Source) (p' : Parser) : Prop where
  file  : src'.file = src.file
  fresh : src'.Fresh t
  image : p'.image = p.image
  notes : Notes p p' false

theorem Passes.moves (h : Passes src p t src' p') : Moves src p t false src' p' :=
  ⟨h.file, .inl h.fresh, h.image, h.notes⟩

-- ---------------------------------------------------------------------------
-- nextc
-- ---------------------------------------------------------------------------

/-- `nextc` returns at the first byte that is not white space. -/
theorem nextcBody_stop (h : src.Stands t) (hvisible : ∀ b ∈ t.head?, Visible b) (p : Parser) :
    ∃ src', nextcBody (src, p) = .inr (some (src.int t.head?, src', p)) ∧ src'.file = src.file ∧
      src'.Fresh t.tail := by
  obtain ⟨src', hget, hfile, hfresh⟩ := getc_spec h
  refine ⟨src', ?_, hfile, hfresh⟩
  have hhash : src.int t.head? ≠ code '#' := by
    rw [Ne, int_eq_code (by decide)]
    exact fun heq => (hvisible _ heq).2 rfl
  have hline : src.int t.head? ≠ code '\n' := by
    rw [Ne, int_eq_code (by decide)]
    exact fun heq => absurd (hvisible _ heq).1 (by decide)
  have hspace : isspace (src.int t.head?) = false := by
    cases hhead : t.head? with
    | none => rfl
    | some b =>
      rw [Source.int, Option.map_some, Option.getD_some, isspace_char]
      exact (hvisible b hhead).1
  simp only [nextcBody, hget, if_neg hhash, if_neg hline, hspace]
  rfl

/-- White space is passed. -/
theorem nextcBody_space (h : src.Stands (b :: t)) (hb : isspace b.toNat = true) (p : Parser) :
    ∃ src' p', nextcBody (src, p) = .inl (src', p') ∧ Passes src p t src' p' := by
  obtain ⟨src', hget, hfile, hfresh⟩ := getc_spec h
  have hint : src.int (b :: t).head? = src.char b := rfl
  rw [hint] at hget
  have hhash : src.char b ≠ code '#' := by
    rw [Ne, char_eq_code (by decide)]
    rintro rfl
    cases hb
  refine ⟨src', if src.char b = code '\n' then { p with line := p.line + 1 } else p, ?_, hfile,
    hfresh, ?_, ?_⟩
  · simp only [nextcBody, hget, if_neg hhash, isspace_char, hb, if_true]
  · split_ifs <;> rfl
  · split_ifs <;> exact notes_nothing rfl

/-- A comment is passed as a whole, if its loop ends. -/
theorem nextcBody_hash (h : src.Stands ('#'.toUInt8 :: t)) (p : Parser) :
    ∃ src₁, src₁.file = src.file ∧ src₁.Fresh t ∧
      (iterate commentBody src₁.rounds src₁ = none → nextcBody (src, p) = .inr none) ∧
      ∀ src', iterate commentBody src₁.rounds src₁ = some src' →
        nextcBody (src, p) = .inl (src', { p with line := p.line + 1 }) := by
  obtain ⟨src₁, hget, hfile, hfresh⟩ := getc_spec h
  have hhash : src.int ('#'.toUInt8 :: t).head? = code '#' := (int_eq_code (by decide)).mpr rfl
  refine ⟨src₁, hfile, hfresh, ?_, ?_⟩
  · intro hnone
    simp only [nextcBody, hget, hhash, if_true, hnone]
    rfl
  · intro src' hsome
    simp only [nextcBody, hget, hhash, if_true, hsome]
    rfl

/-- A comment is read up to the end of its line. -/
theorem comment_loop {l : List UInt8} (hl : '\n'.toUInt8 ∉ l)
    (h : src.Stands (l ++ '\n'.toUInt8 :: t)) {m : Nat}
    (hm : l.length < m) :
    ∃ src', iterate commentBody m src = some src' ∧ src'.file = src.file ∧ src'.Fresh t := by
  induction l generalizing src m with
  | nil =>
    obtain ⟨m, rfl⟩ : ∃ j, m = j + 1 := ⟨m - 1, by omega⟩
    obtain ⟨src', hget, hfile, hfresh⟩ := getc_spec h
    have hcode : src.int (([] ++ '\n'.toUInt8 :: t).head?) = code '\n' := (int_eq_code (by decide)).mpr rfl
    have hbody : commentBody src = .inr src' := by
      simp only [commentBody, hget, hcode, if_true]
    exact ⟨src', iterate_succ_inr hbody m, hfile, hfresh⟩
  | cons x l ih =>
    rw [List.length_cons] at hm
    rw [List.mem_cons, not_or] at hl
    obtain ⟨m, rfl⟩ : ∃ j, m = j + 1 := ⟨m - 1, by omega⟩
    obtain ⟨src₁, hget, hfile, hfresh⟩ := getc_spec h
    have hcode : src.int ((x :: l ++ '\n'.toUInt8 :: t).head?) ≠ code '\n' := by
      rw [Ne, int_eq_code (by decide)]
      exact fun heq => hl.1 (Option.some.inj heq).symm
    have hbody : commentBody src = .inl src₁ := by
      simp only [commentBody, hget, if_neg hcode]
    obtain ⟨src', hloop, hfile', hfresh'⟩ := ih hl.2 (.inl hfresh) (by omega : l.length < m)
    exact ⟨src', by rw [iterate_succ_inl hbody, hloop], hfile'.trans hfile, hfresh'⟩

/-- A comment that was left has ended. -/
theorem comment_reads {m : Nat} (h : src.Stands t) (hloop : iterate commentBody m src = some src') :
    ∃ l t', '\n'.toUInt8 ∉ l ∧ t = l ++ '\n'.toUInt8 :: t' ∧ src'.file = src.file ∧ src'.Fresh t' := by
  refine iterate_invariant
    (fun s => s.file = src.file ∧ ∃ l t', '\n'.toUInt8 ∉ l ∧ t = l ++ t' ∧ s.Stands t')
    (fun s => ∃ l t', '\n'.toUInt8 ∉ l ∧ t = l ++ '\n'.toUInt8 :: t' ∧ s.file = src.file ∧ s.Fresh t')
    ?_ ?_ ⟨rfl, [], t, List.not_mem_nil, rfl, h⟩ hloop
  · rintro s s' ⟨hsame, l, t', hl, rfl, hs⟩ hround
    obtain ⟨s₁, hget, hfile, hfresh⟩ := getc_spec hs
    simp only [commentBody, hget] at hround
    split_ifs at hround with hcode
    obtain rfl := Sum.inl.inj hround
    rw [int_eq_code (by decide)] at hcode
    cases t' with
    | nil => exact ⟨hfile.trans hsame, l, [], hl, rfl, .inl hfresh⟩
    | cons x t' =>
      refine ⟨hfile.trans hsame, l ++ [x], t', ?_, by rw [List.append_assoc]; rfl, .inl hfresh⟩
      rw [List.mem_append, List.mem_singleton, not_or]
      exact ⟨hl, fun heq => hcode (congrArg some heq.symm)⟩
  · rintro s s' ⟨hsame, l, t', hl, rfl, hs⟩ hleave
    obtain ⟨s₁, hget, hfile, hfresh⟩ := getc_spec hs
    simp only [commentBody, hget] at hleave
    split_ifs at hleave with hcode
    obtain rfl := Sum.inr.inj hleave
    rw [int_eq_code (by decide)] at hcode
    obtain ⟨t'', rfl⟩ := List.head?_eq_some_iff.mp hcode
    exact ⟨l, t'', hl, rfl, hfile.trans hsame, hfresh⟩

/-- `nextc` passes what the grammar has before a token. -/
theorem nextc_skips (h : src.Stands t) (hskips : Skips t r) (p : Parser) :
    ∃ src' p', nextc src p = some (src.int r.head?, src', p') ∧ Passes src p r.tail src' p' := by
  suffices hloop : ∀ m, t.length < m → ∃ src' p', iterate nextcBody m (src, p) =
      some (some (src.int r.head?, src', p')) ∧ Passes src p r.tail src' p' by
    obtain ⟨src', p', hrun, hpass⟩ := hloop src.rounds h.rounds
    exact ⟨src', p', by rw [nextc, hrun]; rfl, hpass⟩
  intro m hm
  induction hskips generalizing src p m with
  | stop hvisible =>
    obtain ⟨m, rfl⟩ : ∃ j, m = j + 1 := ⟨m - 1, by omega⟩
    obtain ⟨src', hbody, hfile, hfresh⟩ := nextcBody_stop h hvisible p
    exact ⟨src', p, iterate_succ_inr hbody m, hfile, hfresh, rfl, notes_nothing rfl⟩
  | blank hb _ ih =>
    rw [List.length_cons] at hm
    obtain ⟨m, rfl⟩ : ∃ j, m = j + 1 := ⟨m - 1, by omega⟩
    obtain ⟨src₁, p₁, hbody, hpass⟩ := nextcBody_space h hb p
    obtain ⟨src', p', hrun, hpass'⟩ := ih (.inl hpass.fresh) p₁ m (by omega)
    refine ⟨src', p', ?_, hpass'.file.trans hpass.file, hpass'.fresh, hpass'.image.trans hpass.image,
      hpass.notes.trans hpass'.notes⟩
    rw [iterate_succ_inl hbody, hrun, int_congr hpass.file]
  | @comment l t r hl _ ih =>
    rw [List.length_cons, List.length_append, List.length_cons] at hm
    obtain ⟨m, rfl⟩ : ∃ j, m = j + 1 := ⟨m - 1, by omega⟩
    obtain ⟨src₁, hfile₁, hfresh₁, -, hbody⟩ := nextcBody_hash h p
    have hrounds := (show src₁.Stands _ from .inl hfresh₁).rounds
    rw [List.length_append] at hrounds
    obtain ⟨src₂, hcomment, hfile₂, hfresh₂⟩ := comment_loop hl (.inl hfresh₁)
      (by omega : l.length < src₁.rounds)
    obtain ⟨src', p', hrun, hpass⟩ := ih (.inl hfresh₂) { p with line := p.line + 1 } m (by omega)
    refine ⟨src', p', ?_, (hpass.file.trans hfile₂).trans hfile₁, hpass.fresh, hpass.image, hpass.notes⟩
    rw [iterate_succ_inl (hbody src₂ hcomment), hrun, int_congr (hfile₂.trans hfile₁)]

/-- Where `nextc` returned, no comment is open at the end. -/
theorem nextc_reads {v : Int × Source × Parser} (h : src.Stands t) (hnext : nextc src p = some v) :
    ∃ r, Skips t r := by
  obtain ⟨w, hrun, hw⟩ := Option.bind_eq_some_iff.mp hnext
  refine iterate_invariant (fun s => ∃ t', s.1.Stands t' ∧ ∀ r, Skips t' r → Skips t r)
    (fun w => ∀ v, w = some v → ∃ r, Skips t r) ?_ ?_ ⟨t, h, fun _ h => h⟩ hrun v hw
  · rintro ⟨s, q⟩ ⟨s', q'⟩ ⟨t', hs, hback⟩ hround
    cases t' with
    | nil =>
      obtain ⟨s₁, hbody, -⟩ := nextcBody_stop hs (fun b hb => absurd hb (Option.not_mem_none b)) q
      rw [hbody] at hround
      cases hround
    | cons b t' =>
      by_cases hspace : isspace b.toNat = true
      · obtain ⟨s₁, q₁, hbody, hpass⟩ := nextcBody_space hs hspace q
        obtain ⟨rfl, -⟩ := Prod.mk.inj (Sum.inl.inj (hbody.symm.trans hround))
        exact ⟨t', .inl hpass.fresh, fun r hr => hback r (.blank hspace hr)⟩
      · by_cases hhash : b = '#'.toUInt8
        · subst hhash
          obtain ⟨s₁, -, hfresh₁, hnone, hsome⟩ := nextcBody_hash hs q
          cases hcomment : iterate commentBody s₁.rounds s₁ with
          | none =>
            rw [hnone hcomment] at hround
            cases hround
          | some s₂ =>
            obtain ⟨rfl, -⟩ := Prod.mk.inj (Sum.inl.inj ((hsome s₂ hcomment).symm.trans hround))
            obtain ⟨l, t'', hl, rfl, -, hfresh⟩ := comment_reads (.inl hfresh₁) hcomment
            exact ⟨t'', .inl hfresh, fun r hr => hback r (.comment hl hr)⟩
        · have hvisible : ∀ x ∈ (b :: t').head?, Visible x := by
            intro x hx
            obtain rfl := Option.some.inj hx
            exact ⟨Bool.not_eq_true _ ▸ hspace, hhash⟩
          obtain ⟨s₁, hbody, -⟩ := nextcBody_stop hs hvisible q
          rw [hbody] at hround
          cases hround
  · rintro ⟨s, q⟩ w ⟨t', hs, hback⟩ hleave v rfl
    cases t' with
    | nil => exact ⟨[], hback _ (.stop fun b hb => absurd hb (Option.not_mem_none b))⟩
    | cons b t' =>
      by_cases hspace : isspace b.toNat = true
      · obtain ⟨s₁, q₁, hbody, -⟩ := nextcBody_space hs hspace q
        rw [hbody] at hleave
        cases hleave
      · by_cases hhash : b = '#'.toUInt8
        · subst hhash
          obtain ⟨s₁, -, -, hnone, hsome⟩ := nextcBody_hash hs q
          cases hcomment : iterate commentBody s₁.rounds s₁ with
          | none =>
            rw [hnone hcomment] at hleave
            cases hleave
          | some s₂ =>
            rw [hsome s₂ hcomment] at hleave
            cases hleave
        · refine ⟨b :: t', hback _ (.stop fun x hx => ?_)⟩
          obtain rfl := Option.some.inj hx
          exact ⟨Bool.not_eq_true _ ▸ hspace, hhash⟩

-- ---------------------------------------------------------------------------
-- expect and peekc
-- ---------------------------------------------------------------------------

/-- `expect` takes a mark, or complains. -/
theorem expect_moves (hc : c.toNat < 128) (h : src.Stands t) (hexpects : Expects lax c t t' e) (p : Parser) :
    ∃ src' p', expect c src p = some (src', p') ∧ Moves src p t' e src' p' := by
  cases hexpects with
  | found hskips =>
    obtain ⟨src', p', hnext, hpass⟩ := nextc_skips h hskips p
    have hcode : src.int (some c.toUInt8) = code c := (int_eq_code hc).mpr rfl
    refine ⟨src', p', ?_, hpass.moves⟩
    rw [expect, hnext, Option.map_some, List.head?_cons, hcode]
    simp only [ne_eq, not_true, if_false]
  | @other r _ hskips hne =>
    obtain ⟨src', p', hnext, hpass⟩ := nextc_skips h hskips p
    have hcode : src.int r.head? ≠ code c := by rwa [Ne, int_eq_code hc]
    refine ⟨src', p'.error (.expected (code c) (src.int r.head?)), ?_, hpass.file, .inl hpass.fresh,
      hpass.image, hpass.notes.trans (notes_error p' _)⟩
    rw [expect, hnext, Option.map_some]
    simp only [hcode, ne_eq, not_false_eq_true, if_true]

/-- Where `expect` returns, the grammar has what it took. -/
theorem expect_reads {v : Source × Parser} (h : src.Stands t) (hexpect : expect c src p = some v) :
    ∃ t' e, Expects True c t t' e := by
  obtain ⟨v', hnext, -⟩ := Option.map_eq_some_iff.mp hexpect
  obtain ⟨r, hskips⟩ := nextc_reads h hnext
  by_cases hhead : r.head? = some c.toUInt8
  · obtain ⟨r', rfl⟩ := List.head?_eq_some_iff.mp hhead
    exact ⟨r', false, .found hskips⟩
  · exact ⟨r.tail, true, .other trivial hskips hhead⟩

/-- A character that is not negative is read again. -/
theorem ungetc_stands (h : src.Fresh r.tail) (hkept : ∀ b ∈ r.head?, Kept src.file b) :
    ∃ src', srcUngetc (src.int r.head?) src = some src' ∧ src'.file = src.file ∧ src'.Stands r := by
  refine ⟨{ src with ungot := src.int r.head? }, by rw [srcUngetc, if_pos h.1], rfl, ?_⟩
  cases r with
  | nil => exact .inl ⟨Int.negSucc_lt_zero 0, h.2⟩
  | cons b r => exact .inr ⟨b, rfl, (kept_iff src b).mp (hkept b rfl), congrArg (b :: ·) h.2.symm⟩

/-- `peekc` returns what comes behind white space and comments. -/
theorem peekc_moves (h : src.Stands t) (hpeeks : Peeks lax src.file t o t') (p : Parser) :
    ∃ src' p', peekc src p = some (src.int o, src', p') ∧ Moves src p t' false src' p' := by
  cases hpeeks with
  | kept hskips hkept =>
    obtain ⟨src₁, p', hnext, hfile, hfresh, himage, hnotes⟩ := nextc_skips h hskips p
    obtain ⟨src', hunget, hfile', hstands⟩ := ungetc_stands hfresh (hfile ▸ hkept)
    rw [int_congr hfile] at hunget
    refine ⟨src', p', ?_, hfile'.trans hfile, hstands, himage, hnotes⟩
    rw [peekc, hnext, Option.bind_some]
    simp only [hunget, Option.map_some]
  | @lost _ b _ hskips hlost =>
    obtain ⟨src₁, p', hnext, hfile, hfresh, himage, hnotes⟩ := nextc_skips h hskips p
    have hneg : src.char b < 0 := by rwa [kept_iff, not_le] at hlost
    refine ⟨{ src₁ with ungot := src.char b }, p', ?_, hfile, .inl ⟨hneg, hfresh.2⟩, himage, hnotes⟩
    rw [peekc, hnext, Option.bind_some]
    simp only [srcUngetc, if_pos hfresh.1]
    rfl

/-- Where it returns, the grammar has that. -/
theorem peekc_reads {v : Int × Source × Parser} (h : src.Stands t) (hpeek : peekc src p = some v) :
    ∃ o t', Peeks True src.file t o t' := by
  obtain ⟨v', hnext, -⟩ := Option.bind_eq_some_iff.mp hpeek
  obtain ⟨r, hskips⟩ := nextc_reads h hnext
  by_cases hkept : ∀ b ∈ r.head?, Kept src.file b
  · exact ⟨r.head?, r, .kept hskips hkept⟩
  · rw [not_forall] at hkept
    obtain ⟨b, hb⟩ := hkept
    rw [Classical.not_imp] at hb
    obtain ⟨r', rfl⟩ := List.head?_eq_some_iff.mp hb.1
    exact ⟨some b, r', .lost trivial hskips hb.2⟩

-- ---------------------------------------------------------------------------
-- getstr
-- ---------------------------------------------------------------------------

/-- Marks that can end a word. -/
def Marks (term : List Char) : Prop := ∀ c ∈ term, c.toNat < 128 ∧ isspace (code c) = false

theorem marks_equal : Marks ['=', ']'] := by
  rw [Marks, List.forall_mem_cons, List.forall_mem_singleton]
  decide

theorem marks_comma : Marks [',', ']'] := by
  rw [Marks, List.forall_mem_cons, List.forall_mem_singleton]
  decide

section Words

variable {term : List Char} {w : List UInt8} {str : CStr}

/-- A terminator is told by its byte. -/
theorem char_mem_iff (hterm : Marks term) (src : Source) :
    src.char b ∈ term.map code ↔ b ∈ term.map Char.toUInt8 := by
  rw [List.mem_map, List.mem_map]
  constructor
  · rintro ⟨c, hc, heq⟩
    exact ⟨c, hc, ((char_eq_code (hterm c hc).1).mp heq.symm).symm⟩
  · rintro ⟨c, hc, rfl⟩
    exact ⟨c, hc, ((char_eq_code (hterm c hc).1).mpr rfl).symm⟩

theorem mark_ascii (hterm : Marks term) (hb : b ∈ term.map Char.toUInt8) :
    b.toNat < 128 ∧ isspace b.toNat = false := by
  obtain ⟨c, hc, rfl⟩ := List.mem_map.mp hb
  obtain ⟨hascii, hspace⟩ := hterm c hc
  rw [toNat_toUInt8 hascii]
  exact ⟨hascii, hspace⟩

/-- One more character of a word. -/
theorem wordBody_more (src : Source) (hterm : Marks term) (hb : InWord term b) (s : Source) (l : List UInt8) :
    wordBody term (src.char b, s, l) = .inl ((srcGetc s).1, (srcGetc s).2, l ++ [b]) := by
  have hmem : src.char b ∉ term.map code := (char_mem_iff hterm src).not.mpr hb.2
  rw [wordBody, isspace_char, hb.1, if_neg Bool.false_ne_true, if_neg hmem, toByte_char]

/-- At its end the loop over a word stops. -/
theorem wordBody_ends (hterm : Marks term) (hend : WordEnds term r t') {s : Source}
    (hsame : s.file = src.file)
    (hs : s.Fresh r.tail) (l : List UInt8) :
    ∃ s', wordBody term (src.int r.head?, s, l) = .inr (some (s', l)) ∧
      s'.file = src.file ∧ s'.Stands t' := by
  cases hend with
  | @space b _ hb =>
    have hspace : isspace (src.char b) = true := by rw [isspace_char, hb]
    exact ⟨s, if_pos hspace, hsame, .inl hs⟩
  | @mark b t hb =>
    obtain ⟨hascii, hspace⟩ := mark_ascii hterm hb
    have hkept : ∀ x ∈ (b :: t).head?, Kept s.file x := by
      intro x hx
      obtain rfl := Option.some.inj hx
      exact .inr hascii
    obtain ⟨s', hunget, hfile, hstands⟩ := ungetc_stands hs hkept
    rw [int_congr hsame] at hunget
    refine ⟨s', ?_, hfile.trans hsame, hstands⟩
    have hint : src.int (b :: t).head? = src.char b := rfl
    rw [hint] at hunget ⊢
    rw [wordBody, isspace_char, hspace, if_neg Bool.false_ne_true,
      if_pos ((char_mem_iff hterm src).mpr hb), hunget]
    rfl

/-- The loop reads a word, by induction on it. -/
theorem word_moves (hterm : Marks term) (hw : ∀ b ∈ w, InWord term b) (hend : WordEnds term r t') {s : Source}
    (hsame : s.file = src.file) (hs : s.Fresh (w ++ r).tail) (l : List UInt8) {m : Nat} (hm : w.length < m) :
    ∃ s', iterate (wordBody term) m (src.int (w ++ r).head?, s, l) = some (some (s', l ++ w)) ∧
      s'.file = src.file ∧ s'.Stands t' := by
  induction w generalizing s l m with
  | nil =>
    obtain ⟨m, rfl⟩ : ∃ j, m = j + 1 := ⟨m - 1, by omega⟩
    obtain ⟨s', hbody, hfile, hstands⟩ := wordBody_ends hterm hend hsame hs l
    rw [List.append_nil]
    exact ⟨s', iterate_succ_inr hbody m, hfile, hstands⟩
  | cons x w ih =>
    rw [List.length_cons] at hm
    obtain ⟨m, rfl⟩ : ∃ j, m = j + 1 := ⟨m - 1, by omega⟩
    obtain ⟨s₁, hget, hfile₁, hfresh₁⟩ := getc_spec (.inl hs : s.Stands (w ++ r))
    have hbody := wordBody_more src hterm (hw x (List.mem_cons_self ..)) s l
    rw [hget, int_congr hsame] at hbody
    obtain ⟨s', hloop, hfile, hstands⟩ := ih (fun y hy => hw y (List.mem_cons_of_mem _ hy))
      (hfile₁.trans hsame) hfresh₁ (l ++ [x]) (by omega : w.length < m)
    refine ⟨s', ?_, hfile, hstands⟩
    rw [List.append_assoc] at hloop
    exact (iterate_succ_inl hbody m).trans hloop

/-- A word that was left has ended. -/
theorem word_reads (hterm : Marks term) {s : Source} (hsame : s.file = src.file) (hs : s.Fresh t.tail)
    {m : Nat} {v : Source × List UInt8}
    (hloop : iterate (wordBody term) m (src.int t.head?, s, []) = some (some v)) :
    ∃ w r t', t = w ++ r ∧ (∀ b ∈ w, InWord term b) ∧ WordEnds term r t' := by
  refine iterate_invariant
    (fun x => x.2.1.file = src.file ∧ ∃ w r, t = w ++ r ∧ (∀ b ∈ w, InWord term b) ∧ x.1 = src.int r.head? ∧
      x.2.1.Fresh r.tail)
    (fun y => ∀ v, y = some v → ∃ w r t', t = w ++ r ∧ (∀ b ∈ w, InWord term b) ∧ WordEnds term r t')
    ?_ ?_ ⟨hsame, [], t, rfl, fun b hb => absurd hb List.not_mem_nil, rfl, hs⟩ hloop v rfl
  · rintro ⟨c, s, l⟩ y ⟨hsame, w, r, rfl, hw, hc, hs⟩ hround
    obtain rfl : c = src.int r.head? := hc
    simp only [wordBody] at hround
    split_ifs at hround with hspace hmem
    obtain rfl := Sum.inl.inj hround
    obtain ⟨s₁, hget, hfile₁, hfresh₁⟩ := getc_spec (.inl hs : s.Stands r.tail)
    rw [hget]
    refine ⟨hfile₁.trans hsame, ?_⟩
    cases r with
    | nil => exact ⟨w, [], rfl, hw, int_congr hsame none, hfresh₁⟩
    | cons b r =>
      have hb : InWord term b := by
        refine ⟨?_, (char_mem_iff hterm src).not.mp hmem⟩
        rw [← @isspace_char src]
        exact Bool.not_eq_true _ ▸ hspace
      refine ⟨w ++ [b], r, by rw [List.append_assoc]; rfl, ?_, int_congr hsame _, hfresh₁⟩
      intro x hx
      rcases List.mem_append.mp hx with hx | hx
      · exact hw x hx
      · exact List.mem_singleton.mp hx ▸ hb
  · rintro ⟨c, s, l⟩ y ⟨hsame, w, r, rfl, hw, hc, hs⟩ hleave v rfl
    obtain rfl : c = src.int r.head? := hc
    simp only [wordBody] at hleave
    cases r with
    | nil =>
      have hmem : src.int none ∉ term.map code := by
        intro hmem
        obtain ⟨c, hc, heq⟩ := List.mem_map.mp hmem
        exact absurd ((int_eq_code (hterm c hc).1).mp heq.symm) (Option.some_ne_none _).symm
      have hspace : ¬ isspace (src.int none) = true := Bool.false_ne_true
      rw [List.head?_nil, if_neg hspace, if_neg hmem] at hleave
      cases hleave
    | cons b r =>
      by_cases hspace : isspace b.toNat = true
      · exact ⟨w, b :: r, r, rfl, hw, .space hspace⟩
      · have hspace' : ¬ isspace (src.int (b :: r).head?) = true := by
          rw [Source.int, List.head?_cons, Option.map_some, Option.getD_some, isspace_char]
          exact hspace
        rw [if_neg hspace'] at hleave
        split_ifs at hleave with hmem
        exact ⟨w, b :: r, b :: r, rfl, hw, .mark ((char_mem_iff hterm src).mp hmem)⟩

/-- In braces everything is read but the closing one and what looks like the end. -/
theorem inBraces_iff (src : Source) (b : UInt8) :
    InBraces src.file b ↔ src.char b ≠ code '}' ∧ src.char b ≠ eof := by
  have hend : src.char b = eof ↔ src.file = false ∧ b = 0xFF := by
    have hat := atEnd_iff src (some b)
    rw [AtEnd, Option.some_inj] at hat
    exact (hat.symm.trans ⟨fun h => h.resolve_left (Option.some_ne_none b), .inr⟩)
  rw [InBraces, Ne, Ne, Ne, Ne, char_eq_code (by decide), hend, not_and]

/-- The loop reads what is in braces, by induction on it. -/
theorem braces_moves (hw : ∀ b ∈ w, InBraces src.file b) (hend : BracesEnd lax src.file r t') {s : Source}
    (hsame : s.file = src.file) (hs : s.Fresh (w ++ r).tail) (l : List UInt8) {m : Nat} (hm : w.length < m) :
    ∃ s', iterate bracesBody m (src.int (w ++ r).head?, s, l) = some (s', l ++ w) ∧ s'.file = src.file ∧
      s'.Fresh t' := by
  induction w generalizing s l m with
  | nil =>
    obtain ⟨m, rfl⟩ : ∃ j, m = j + 1 := ⟨m - 1, by omega⟩
    have hleave : ¬ (src.int r.head? ≠ code '}' ∧ src.int r.head? ≠ eof) := by
      rw [not_and_or, not_not, not_not]
      cases hend with
      | close => exact .inl ((int_eq_code (by decide)).mpr rfl)
      | cut _ hfile => exact .inr ((atEnd_iff src _).mp (.inr ⟨hfile, rfl⟩))
      | missing _ => exact .inr rfl
    have hbody : bracesBody (src.int r.head?, s, l) = .inr (s, l) := by rw [bracesBody, if_neg hleave]
    have htail : r.tail = t' := by
      cases hend with
      | close => rfl
      | cut _ _ => rfl
      | missing _ => rfl
    rw [List.append_nil]
    exact ⟨s, iterate_succ_inr hbody m, hsame, htail ▸ hs⟩
  | cons x w ih =>
    rw [List.length_cons] at hm
    obtain ⟨m, rfl⟩ : ∃ j, m = j + 1 := ⟨m - 1, by omega⟩
    obtain ⟨s₁, hget, hfile₁, hfresh₁⟩ := getc_spec (.inl hs : s.Stands (w ++ r))
    have hbody : bracesBody (src.char x, s, l) = .inl ((srcGetc s).1, (srcGetc s).2, l ++ [x]) := by
      rw [bracesBody, if_pos ((inBraces_iff src x).mp (hw x (List.mem_cons_self ..))), toByte_char]
    rw [hget, int_congr hsame] at hbody
    obtain ⟨s', hloop, hfile, hfresh⟩ := ih (fun y hy => hw y (List.mem_cons_of_mem _ hy))
      (hfile₁.trans hsame) hfresh₁ (l ++ [x]) (by omega : w.length < m)
    refine ⟨s', ?_, hfile, hfresh⟩
    rw [List.append_assoc] at hloop
    exact (iterate_succ_inl hbody m).trans hloop

/-- Where the loop returns, it has read such a text, by induction on its rounds. -/
theorem braces_reads {s : Source} (hsame : s.file = src.file) (hs : s.Fresh t.tail) {m : Nat}
    {v : Source × List UInt8} (hloop : iterate bracesBody m (src.int t.head?, s, []) = some v) :
    ∃ w r t', t = w ++ r ∧ (∀ b ∈ w, InBraces src.file b) ∧ BracesEnd True src.file r t' := by
  refine iterate_invariant
    (fun x => x.2.1.file = src.file ∧ ∃ w r, t = w ++ r ∧ (∀ b ∈ w, InBraces src.file b) ∧
      x.1 = src.int r.head? ∧ x.2.1.Fresh r.tail)
    (fun _ => ∃ w r t', t = w ++ r ∧ (∀ b ∈ w, InBraces src.file b) ∧ BracesEnd True src.file r t')
    ?_ ?_ ⟨hsame, [], t, rfl, fun b hb => absurd hb List.not_mem_nil, rfl, hs⟩ hloop
  · rintro ⟨c, s, l⟩ y ⟨hsame, w, r, rfl, hw, hc, hs⟩ hround
    obtain rfl : c = src.int r.head? := hc
    simp only [bracesBody] at hround
    split_ifs at hround with hin
    obtain rfl := Sum.inl.inj hround
    obtain ⟨s₁, hget, hfile₁, hfresh₁⟩ := getc_spec (.inl hs : s.Stands r.tail)
    rw [hget]
    refine ⟨hfile₁.trans hsame, ?_⟩
    cases r with
    | nil => exact absurd rfl hin.2
    | cons b r =>
      have hb := (inBraces_iff src b).mpr hin
      refine ⟨w ++ [b], r, by rw [List.append_assoc]; rfl, ?_, int_congr hsame _, hfresh₁⟩
      intro x hx
      rcases List.mem_append.mp hx with hx | hx
      · exact hw x hx
      · exact List.mem_singleton.mp hx ▸ hb
  · rintro ⟨c, s, l⟩ y ⟨hsame, w, r, rfl, hw, hc, hs⟩ hleave
    obtain rfl : c = src.int r.head? := hc
    simp only [bracesBody] at hleave
    split_ifs at hleave with hin
    rw [not_and_or, not_not, not_not, int_eq_code (by decide), ← atEnd_iff] at hin
    rcases hin with hclose | hnil | ⟨hfile, hcut⟩
    · obtain ⟨r', rfl⟩ := List.head?_eq_some_iff.mp hclose
      exact ⟨w, _, r', rfl, hw, .close⟩
    · obtain rfl := List.head?_eq_none_iff.mp hnil
      exact ⟨w, [], [], rfl, hw, .missing trivial⟩
    · obtain ⟨r', rfl⟩ := List.head?_eq_some_iff.mp hcut
      exact ⟨w, _, r', rfl, hw, .cut trivial hfile⟩

/-- Behind a brace `getstr` reads up to the closing one. -/
theorem getstr_eq_braces {src₂ : Source} {x : Int} (h : nextc src p = some (code '{', src', p'))
    (hget : srcGetc src' = (x, src₂)) : getstr term src p =
      (iterate bracesBody src₂.rounds (x, src₂, [])).map fun r => (.ofChars r.2, r.1, p') := by
  simp only [getstr, h, Option.bind_some, if_true, hget]

/-- `getstr` reads a value of the grammar. -/
theorem getstr_moves (hterm : Marks term) (h : src.Stands t) (htakes : Takes lax src.file term t str t')
    (p : Parser) : ∃ src' p', getstr term src p = some (str, src', p') ∧ Moves src p t' false src' p' := by
  cases htakes with
  | @word w r _ hskips hopen hw hend _ =>
    obtain ⟨src₁, p', hnext, hfile, hfresh, himage, hnotes⟩ := nextc_skips h hskips p
    have hcode : src.int (w ++ r).head? ≠ code '{' := by rwa [Ne, int_eq_code (by decide)]
    have hrounds : w.length < src₁.rounds := by
      have hlen := congrArg List.length hfresh.2
      rw [List.length_tail, List.length_append] at hlen
      unfold Source.rounds
      omega
    obtain ⟨src', hloop, hfile', hstands⟩ := word_moves hterm hw hend hfile hfresh [] hrounds
    refine ⟨src', p', ?_, hfile', hstands, himage, hnotes⟩
    rw [getstr_eq_word hnext hcode, hloop, Option.join_some, Option.map_some, List.nil_append]
  | @braces w r _ hskips hw hend _ =>
    obtain ⟨src₁, p', hnext, hfile, hfresh, himage, hnotes⟩ := nextc_skips h hskips p
    obtain ⟨src₂, hget, hfile₂, hfresh₂⟩ := getc_spec (.inl hfresh : src₁.Stands (w ++ r))
    have hcode : src.int (some '{'.toUInt8) = code '{' := (int_eq_code (by decide)).mpr rfl
    rw [List.head?_cons, hcode] at hnext
    rw [int_congr hfile] at hget
    have hrounds : w.length < src₂.rounds := by
      have hlen := congrArg List.length hfresh₂.2
      rw [List.length_tail, List.length_append] at hlen
      unfold Source.rounds
      omega
    obtain ⟨src', hloop, hfile', hfresh'⟩ := braces_moves hw hend (hfile₂.trans hfile) hfresh₂ [] hrounds
    refine ⟨src', p', ?_, hfile', .inl hfresh', himage, hnotes⟩
    rw [getstr_eq_braces hnext hget, hloop, Option.map_some, List.nil_append]

/-- What it has read is one. -/
theorem getstr_reads (hterm : Marks term) {v : CStr × Source × Parser} (h : src.Stands t)
    (hget : getstr term src p = some v) : ∃ str t', Takes True src.file term t str t' := by
  obtain ⟨v', hnext, -⟩ := Option.bind_eq_some_iff.mp hget
  obtain ⟨r, hskips⟩ := nextc_reads h hnext
  obtain ⟨src₁, p', hnext, hfile, hfresh, -, -⟩ := nextc_skips h hskips p
  by_cases hopen : r.head? = some '{'.toUInt8
  · obtain ⟨r, rfl⟩ := List.head?_eq_some_iff.mp hopen
    obtain ⟨src₂, hget₂, hfile₂, hfresh₂⟩ := getc_spec (.inl hfresh : src₁.Stands r)
    have hcode : src.int (some '{'.toUInt8) = code '{' := (int_eq_code (by decide)).mpr rfl
    rw [List.head?_cons, hcode] at hnext
    rw [int_congr hfile] at hget₂
    rw [getstr_eq_braces hnext hget₂] at hget
    obtain ⟨y, hloop, -⟩ := Option.map_eq_some_iff.mp hget
    obtain ⟨w, r', t', rfl, hw, hend⟩ := braces_reads (hfile₂.trans hfile) hfresh₂ hloop
    exact ⟨_, t', .braces hskips hw hend (.inl trivial)⟩
  · have hcode : src.int r.head? ≠ code '{' := by rwa [Ne, int_eq_code (by decide)]
    rw [getstr_eq_word hnext hcode] at hget
    obtain ⟨y, hloop, -⟩ := Option.map_eq_some_iff.mp hget
    obtain ⟨w, r', t', rfl, hw, hend⟩ := word_reads hterm hfile hfresh (Option.join_eq_some_iff.mp hloop)
    exact ⟨_, t', .word hskips hopen hw hend (.inl trivial)⟩

end Words

end Frosk.Builder.Text
