import Mathlib.Tactic
import Frosk.Builder.Parsing

/-!
# The image builder: tokens

What `nextc`, `expect`, `peekc` and `getstr` make of a text of tokens with any white space
between them.

* `Spells` — the text has these tokens; `Source.At` — a source stands before them, with or
  without a character that was put back.
* `getstr_word` — a word is read whole, up to white space or to a mark that ends it.
* `getstr_braces` — in braces the text is read as it is, up to the first brace that closes.
-/

namespace Frosk.Builder.Text

open Lib Fs

-- ---------------------------------------------------------------------------
-- Characters
-- ---------------------------------------------------------------------------

section Characters

variable {src : Source} {b : UInt8} {c : Char} {t ws : List UInt8}

/-- A byte that is ASCII is read as it is, from a file and from a string. -/
theorem char_eq_iff {n : Nat} (hn : n < 128) : src.char b = n ↔ b.toNat = n := by
  have hb := b.toNat_lt
  unfold Source.char schar
  split_ifs <;> omega

theorem toNat_toUInt8 (hc : c.toNat < 128) : c.toUInt8.toNat = c.toNat :=
  Nat.mod_eq_of_lt (by omega : c.toNat < 2 ^ 8)

/-- So a mark is told by its byte. -/
theorem char_eq_code (hc : c.toNat < 128) : src.char b = code c ↔ b = c.toUInt8 := by
  rw [char_eq_iff hc, ← toNat_toUInt8 hc, UInt8.toNat_inj]

theorem char_ascii (hb : b.toNat < 128) : src.char b = b.toNat := (char_eq_iff hb).mpr rfl

/-- White space is the same from both. -/
theorem isspace_char : isspace (src.char b) = isspace b.toNat := by
  have hb := b.toNat_lt
  unfold isspace Source.char schar
  rw [decide_eq_decide]
  split_ifs <;> omega

theorem toByte_char : toByte (src.char b) = b := by
  have hb := b.toNat_lt
  have hval : (src.char b % 256).toNat = b.toNat := by
    unfold Source.char schar
    split_ifs <;> omega
  rw [toByte, hval, UInt8.ofNat_toNat]

/-- A character that `nextc` stops at. -/
def Visible (b : UInt8) : Prop := isspace b.toNat = false ∧ b ≠ '#'.toUInt8

/-- White space. -/
def Blank (ws : List UInt8) : Prop := ∀ b ∈ ws, isspace b.toNat = true

/-- The source stands at `t`, and nothing was put back. -/
def Source.at (src : Source) (t : List UInt8) : Source := ⟨src.file, t, -1⟩

/-- What is still to be read is `t`. -/
def Source.Holds (src : Source) (t : List UInt8) : Prop :=
  src.ungot = -1 ∧ src.rest = t ∨ ∃ b, b.toNat < 128 ∧ src.ungot = b.toNat ∧ t = b :: src.rest

theorem holds_at (src : Source) (t : List UInt8) : (src.at t).Holds t := .inl ⟨rfl, rfl⟩

/-- The loops over a source have a round for each byte of it. -/
theorem Source.Holds.rounds (h : src.Holds t) : t.length < src.rounds := by
  unfold Source.rounds
  rcases h with ⟨-, rfl⟩ | ⟨b, -, -, rfl⟩
  · omega
  · rw [List.length_cons]
    omega

/-- A byte is read. -/
theorem getc_cons (h : src.Holds (b :: t)) : srcGetc src = (src.char b, src.at t) := by
  obtain ⟨file, rest, ungot⟩ := src
  rcases h with ⟨hungot, hrest⟩ | ⟨b', hb', hungot, heq⟩
  · obtain rfl : ungot = -1 := hungot
    obtain rfl : rest = b :: t := hrest
    rfl
  · obtain ⟨rfl, rfl⟩ := List.cons.inj heq
    obtain rfl : ungot = b.toNat := hungot
    rw [srcGetc, if_neg (by simp), char_ascii hb']
    rfl

theorem getc_nil (h : src.Holds []) : srcGetc src = (eof, src.at []) := by
  obtain ⟨file, rest, ungot⟩ := src
  rcases h with ⟨hungot, hrest⟩ | ⟨b, -, -, heq⟩
  · obtain rfl : ungot = -1 := hungot
    obtain rfl : rest = [] := hrest
    rfl
  · cases heq

/-- A character that is put back is read again. -/
theorem ungetc_at (src : Source) (t : List UInt8) (hb : b.toNat < 128) :
    ∃ src', srcUngetc (src.char b) (src.at t) = some src' ∧ src'.file = src.file ∧
      src'.Holds (b :: t) :=
  ⟨⟨src.file, t, src.char b⟩, rfl, rfl, .inr ⟨b, hb, char_ascii hb, rfl⟩⟩

/-- Lines that were skipped. -/
def Parser.skip (p : Parser) (n : Nat) : Parser := { p with line := p.line + n }

/-- Lines are counted on. -/
theorem skip_skip (p : Parser) (a b : Nat) : (p.skip a).skip b = p.skip (a + b) := by
  simp [Parser.skip, Nat.add_assoc]

/-- White space is skipped. -/
theorem nextcBody_blank (h : src.Holds (b :: t)) (hb : isspace b.toNat = true) :
    ∃ n, ∀ p, nextcBody (src, p) = .inl (src.at t, p.skip n) := by
  have hhash : src.char b ≠ code '#' := by
    rw [Ne, char_eq_code (by decide)]
    rintro rfl
    cases hb
  refine ⟨if src.char b = code '\n' then 1 else 0, ?_⟩
  intro p
  simp only [nextcBody, getc_cons h, if_neg hhash, isspace_char, hb, if_true]
  split_ifs <;> rfl

theorem nextcBody_visible (h : src.Holds (b :: t)) (hb : Visible b) (p : Parser) :
    nextcBody (src, p) = .inr (some (src.char b, src.at t, p)) := by
  have hhash : src.char b ≠ code '#' := by
    rw [Ne, char_eq_code (by decide)]
    exact hb.2
  have hline : src.char b ≠ code '\n' := by
    rw [Ne, char_eq_code (by decide)]
    rintro rfl
    cases hb.1
  simp only [nextcBody, getc_cons h, if_neg hhash, isspace_char, hb.1, if_neg hline]
  rfl

theorem nextcBody_end (h : src.Holds []) (p : Parser) :
    nextcBody (src, p) = .inr (some (eof, src.at [], p)) := by
  simp only [nextcBody, getc_nil h]
  rfl

/-- White space is skipped, up to a round that leaves. -/
theorem nextc_leaves (r : Int × Source) (hws : Blank ws) (h : src.Holds (ws ++ t))
    (hleave : ∀ src' p, src'.file = src.file → src'.Holds t →
      nextcBody (src', p) = .inr (some (r.1, r.2, p))) :
    ∃ n, ∀ p, nextc src p = some (r.1, r.2, p.skip n) := by
  suffices hloop : ∀ m, ws.length < m → ∃ n, ∀ p,
      iterate nextcBody m (src, p) = some (some (r.1, r.2, p.skip n)) by
    have hrounds := h.rounds
    rw [List.length_append] at hrounds
    obtain ⟨n, hn⟩ := hloop src.rounds (by omega)
    exact ⟨n, fun p => by rw [nextc, hn]; rfl⟩
  intro m hm
  induction ws generalizing src m with
  | nil =>
    obtain ⟨m, rfl⟩ : ∃ j, m = j + 1 := ⟨m - 1, by omega⟩
    exact ⟨0, fun p => iterate_succ_inr (hleave src p rfl h) m⟩
  | cons w ws ih =>
    rw [List.length_cons] at hm
    rw [List.cons_append] at h
    obtain ⟨m, rfl⟩ : ∃ j, m = j + 1 := ⟨m - 1, by omega⟩
    obtain ⟨n, hn⟩ := nextcBody_blank h (hws w (List.mem_cons_self ..))
    obtain ⟨n', hn'⟩ := ih (fun x hx => hws x (List.mem_cons_of_mem _ hx)) (holds_at src _)
      (fun src' p hfile => hleave src' p hfile) m (by omega)
    refine ⟨n + n', ?_⟩
    intro p
    rw [iterate_succ_inl (hn p), hn', skip_skip]

/-- `nextc` returns the first byte that is not white space. -/
theorem nextc_visible (hws : Blank ws) (h : src.Holds (ws ++ b :: t)) (hb : Visible b) :
    ∃ n, ∀ p, nextc src p = some (src.char b, src.at t, p.skip n) := by
  refine nextc_leaves (src.char b, src.at t) hws h ?_
  intro src' p hfile hholds
  have hsame : src'.char b = src.char b := by rw [Source.char, hfile, Source.char]
  have hat : src'.at t = src.at t := by rw [Source.at, hfile, Source.at]
  rw [nextcBody_visible hholds hb, hsame, hat]

/-- At the end of the text `nextc` returns `eof`. -/
theorem nextc_end (hws : Blank ws) (h : src.Holds ws) :
    ∃ n, ∀ p, nextc src p = some (eof, src.at [], p.skip n) := by
  refine nextc_leaves (eof, src.at []) hws (by rwa [List.append_nil]) ?_
  intro src' p hfile hholds
  rw [nextcBody_end hholds, Source.at, hfile, Source.at]

end Characters

-- ---------------------------------------------------------------------------
-- Tokens
-- ---------------------------------------------------------------------------

/-- A text of tokens, with any white space before and behind them. -/
inductive Spells : List (List UInt8) → List UInt8 → Prop
  | nil {ws : List UInt8} (hws : Blank ws) : Spells [] ws
  | cons {ws tok : List UInt8} {toks : List (List UInt8)} {t : List UInt8} (hws : Blank ws)
      (ht : Spells toks t) : Spells (tok :: toks) (ws ++ (tok ++ t))

/-- What is still to be read are the tokens. -/
def Source.At (src : Source) (toks : List (List UInt8)) : Prop := ∃ t, src.Holds t ∧ Spells toks t

/-- The token of a mark. -/
abbrev mark (c : Char) : List UInt8 := [c.toUInt8]

/-- What has a meaning in the syntax. -/
def marks : List Char := ['#', '{', '}', '[', ']', ',', '=']

/-- A byte that ends no word and begins nothing else. -/
def plainByte (b : UInt8) : Bool := !isspace b.toNat && !(marks.map Char.toUInt8).contains b

/-- A string that can be written as a word. -/
def Plain (str : CStr) : Prop := ∀ b ∈ str.chars, plainByte b = true

instance (str : CStr) : Decidable (Plain str) := List.decidableBAll ..

section Tokens

variable {src : Source} {toks inner : List (List UInt8)} {c : Char} {b : UInt8} {w t ws : List UInt8}

/-- White space behind white space. -/
theorem Blank.append (h : Blank ws) (h' : Blank t) : Blank (ws ++ t) := fun b hb =>
  (List.mem_append.mp hb).elim (h b) (h' b)

/-- White space before a text is part of it. -/
theorem Spells.indent (hws : Blank ws) (h : Spells toks t) : Spells toks (ws ++ t) := by
  cases h with
  | nil hws' => exact .nil (hws.append hws')
  | cons hws' ht =>
    rw [← List.append_assoc]
    exact .cons (hws.append hws') ht

/-- One more token, with nothing before it. -/
theorem Spells.next (tok : List UInt8) (h : Spells toks t) : Spells (tok :: toks) (tok ++ t) := by
  have hnil : Blank [] := nofun
  exact .cons hnil h

theorem at_of_spells (src : Source) (h : Spells toks t) : (src.at t).At toks := ⟨t, holds_at src t, h⟩

/-- Names have no white space. -/
theorem plain_visible (hb : plainByte b = true) : Visible b := by
  rw [plainByte, Bool.and_eq_true, Bool.not_eq_true', Bool.not_eq_true'] at hb
  refine ⟨hb.1, ?_⟩
  rintro rfl
  exact absurd hb.2 (by decide)

/-- A mark that is not in a word. -/
theorem plain_ne_code (hb : plainByte b = true) (hc : c ∈ marks) : src.char b ≠ code c := by
  have hmem : c.toUInt8 ∈ marks.map Char.toUInt8 := List.mem_map_of_mem hc
  have hall : marks.all (fun c => c.toNat < 128) = true := rfl
  have hascii : c.toNat < 128 := of_decide_eq_true (List.all_eq_true.mp hall c hc)
  rw [Ne, char_eq_code hascii]
  rintro rfl
  rw [plainByte, Bool.and_eq_true, Bool.not_eq_true', Bool.not_eq_true'] at hb
  rw [← List.contains_iff_mem, hb.2] at hmem
  cases hmem

/-- `nextc` returns the first byte of the next token. -/
theorem nextc_token (h : src.At ((b :: w) :: toks)) (hb : Visible b) :
    ∃ t n, Spells toks t ∧ ∀ p, nextc src p = some (src.char b, src.at (w ++ t), p.skip n) := by
  obtain ⟨t, hholds, hspells⟩ := h
  cases hspells with
  | cons hws ht =>
    obtain ⟨n, hn⟩ := nextc_visible hws hholds hb
    exact ⟨_, n, ht, hn⟩

/-- `expect` takes a mark that is there. -/
theorem expect_token (hc : c.toNat < 128) (hv : Visible c.toUInt8) (h : src.At (mark c :: toks)) :
    ∃ src' n, src'.file = src.file ∧ src'.At toks ∧ ∀ p, expect c src p = some (src', p.skip n) := by
  obtain ⟨t, n, hspells, hn⟩ := nextc_token h hv
  refine ⟨src.at t, n, rfl, at_of_spells src hspells, ?_⟩
  intro p
  rw [expect, hn, Option.map_some, (char_eq_code hc).mpr rfl]
  simp

/-- `peekc` returns the first byte of the next token and puts it back. -/
theorem peekc_token (h : src.At ((b :: w) :: toks)) (hb : Visible b) (hlow : b.toNat < 128) :
    ∃ src' n, src'.file = src.file ∧ src'.At ((b :: w) :: toks) ∧
      ∀ p, peekc src p = some (src.char b, src', p.skip n) := by
  obtain ⟨t, n, hspells, hn⟩ := nextc_token h hb
  obtain ⟨src', hunget, hfile, hholds⟩ := ungetc_at src (w ++ t) hlow
  refine ⟨src', n, hfile, ⟨_, hholds, hspells.next _⟩, ?_⟩
  intro p
  simp only [peekc, hn, Option.bind_some, hunget, Option.map_some]

/-- At the end it returns the end. -/
theorem peekc_end (h : src.At []) : ∃ n, ∀ p, peekc src p = some (eof, src.at [], p.skip n) := by
  obtain ⟨t, hholds, hspells⟩ := h
  cases hspells with
  | nil hws =>
    obtain ⟨n, hn⟩ := nextc_end hws hholds
    exact ⟨n, fun p => by rw [peekc, hn]; rfl⟩

-- ---------------------------------------------------------------------------
-- getstr
-- ---------------------------------------------------------------------------

/-- The mark `c` ends a word that `term` ends. -/
structure Ends (term : List Char) (c : Char) : Prop where
  marks : term ⊆ marks
  mem   : c ∈ term
  ascii : c.toNat < 128
  solid : isspace (code c) = false
  apart : c ≠ '#' ∧ c ≠ '{'

variable {term : List Char}

/-- A round over a character of a word. -/
theorem wordBody_plain (hterm : term ⊆ marks) (hb : plainByte b = true)
    (src src' : Source) (str : List UInt8) : wordBody term (src.char b, src', str) =
      .inl ((srcGetc src').1, (srcGetc src').2, str ++ [b]) := by
  have hmem : src.char b ∉ term.map code := by
    intro hmem
    obtain ⟨c, hc, heq⟩ := List.mem_map.mp hmem
    exact plain_ne_code hb (hterm hc) heq.symm
  rw [wordBody, isspace_char, (plain_visible hb).1, if_neg Bool.false_ne_true, if_neg hmem, toByte_char]

/-- The end of a word, at white space or at a mark that ends it, which is put back. -/
theorem word_end (hc : Ends term c) (ht : Spells (mark c :: toks) t) (src : Source)
    (str : List UInt8) :
    ∃ src', src'.file = src.file ∧ src'.At (mark c :: toks) ∧
      wordBody term ((srcGetc (src.at t)).1, (srcGetc (src.at t)).2, str) = .inr (some (src', str)) := by
  cases ht with
  | @cons ws _ _ t hws ht =>
    cases ws with
    | nil =>
      have hget : srcGetc (src.at (c.toUInt8 :: t)) = (src.char c.toUInt8, src.at t) :=
        getc_cons (holds_at src _)
      have hcode : src.char c.toUInt8 = code c := (char_eq_code hc.ascii).mpr rfl
      have hlow : c.toUInt8.toNat < 128 := by
        rw [toNat_toUInt8 hc.ascii]
        exact hc.ascii
      obtain ⟨src', hunget, hfile, hholds⟩ := ungetc_at src t hlow
      refine ⟨src', hfile, ⟨_, hholds, ht.next _⟩, ?_⟩
      rw [List.nil_append, List.cons_append, List.nil_append, hget, wordBody, hcode, hc.solid,
        if_neg Bool.false_ne_true, if_pos (List.mem_map_of_mem hc.mem), ← hcode, hunget]
      rfl
    | cons x ws =>
      have hget :
          srcGetc (src.at (x :: (ws ++ (mark c ++ t)))) = (src.char x, src.at (ws ++ (mark c ++ t))) :=
        getc_cons (holds_at src _)
      have hblank : Blank ws := fun y hy => hws y (List.mem_cons_of_mem _ hy)
      refine ⟨src.at (ws ++ (mark c ++ t)), rfl, at_of_spells src (.cons hblank ht), ?_⟩
      rw [List.cons_append, hget, wordBody, isspace_char, hws x (List.mem_cons_self ..), if_pos rfl]

/-- The loop over a word that has begun. -/
theorem word_loop (hc : Ends term c) (ht : Spells (mark c :: toks) t) (src : Source)
    (hb : ∀ x ∈ b :: w, plainByte x = true) (str : List UInt8) {m : Nat} (hm : w.length + 1 < m) :
    ∃ src', src'.file = src.file ∧ src'.At (mark c :: toks) ∧
      iterate (wordBody term) m (src.char b, src.at (w ++ t), str) = some (some (src', str ++ b :: w)) := by
  induction w generalizing b str m with
  | nil =>
    obtain ⟨m, rfl⟩ : ∃ j, m = j + 2 := ⟨m - 2, by simp at hm; omega⟩
    obtain ⟨src', hfile, hat, hend⟩ := word_end hc ht src (str ++ [b])
    refine ⟨src', hfile, hat, ?_⟩
    rw [iterate_succ_inl (wordBody_plain hc.marks (hb b (List.mem_cons_self ..)) _ _ _), List.nil_append,
      iterate_succ_inr hend]
  | cons x w ih =>
    rw [List.length_cons] at hm
    obtain ⟨m, rfl⟩ : ∃ j, m = j + 1 := ⟨m - 1, by omega⟩
    obtain ⟨src', hfile, hat, hloop⟩ := ih (fun y hy => hb y (List.mem_cons_of_mem _ hy)) (str ++ [b])
      (by omega : w.length + 1 < m)
    refine ⟨src', hfile, hat, ?_⟩
    rw [iterate_succ_inl (wordBody_plain hc.marks (hb b (List.mem_cons_self ..)) _ _ _), List.cons_append,
      getc_cons (holds_at src _)]
    rw [List.append_assoc] at hloop
    exact hloop

/-- No terminator is white space. -/
theorem Ends.visible (hc : Ends term c) : Visible c.toUInt8 := by
  refine ⟨?_, fun heq => hc.apart.1 ?_⟩
  · rw [toNat_toUInt8 hc.ascii]
    exact hc.solid
  · refine Char.toNat_inj.mp ?_
    rw [← toNat_toUInt8 hc.ascii, heq]
    rfl

theorem ofChars_eq {v : List UInt8} (hclean : 0 ∉ v) : CStr.ofChars v = ⟨v, hclean⟩ := by
  have htake : v.takeWhile (· ≠ 0) = v := by
    rw [List.takeWhile_eq_self_iff]
    intro b hb
    simpa using ne_of_mem_of_not_mem hb hclean
  simp only [CStr.ofChars, htake]

/-- Without a brace `getstr` reads a word. -/
theorem getstr_eq_word {src' : Source} {c : Int} {p p' : Parser} (h : nextc src p = some (c, src', p'))
    (hc : c ≠ code '{') : getstr term src p =
      ((iterate (wordBody term) src'.rounds (c, src', [])).join).map fun r => (.ofChars r.2, r.1, p') := by
  simp only [getstr, h, Option.bind_some, if_neg hc]

/-- A word is read whole. -/
theorem getstr_word (hc : Ends term c) {v : CStr} (hv : Plain v)
    (h : src.At (v.chars :: mark c :: toks)) :
    ∃ src' n, src'.file = src.file ∧ src'.At (mark c :: toks) ∧
      ∀ p, getstr term src p = some (v, src', p.skip n) := by
  obtain ⟨v, hclean⟩ := v
  cases v with
  | nil =>
    -- there is only the mark
    obtain ⟨t, hholds, hspells⟩ := h
    cases hspells with
    | cons hws ht =>
      obtain ⟨t, n, hspells, hn⟩ := nextc_token (⟨_, hholds, ht.indent hws⟩ : src.At _) hc.visible
      obtain ⟨src', hfile, hat, hend⟩ := word_end hc (hspells.next _) src []
      have hopen : src.char c.toUInt8 ≠ code '{' := by
        rw [(char_eq_code hc.ascii).mpr rfl]
        exact fun heq => hc.apart.2 (Char.toNat_inj.mp (Int.ofNat_inj.mp heq))
      refine ⟨src', n, hfile, hat, ?_⟩
      intro p
      have hget : srcGetc (src.at (mark c ++ t)) = (src.char c.toUInt8, src.at t) :=
        getc_cons (holds_at src _)
      rw [hget] at hend
      rw [getstr_eq_word (hn p) hopen]
      exact congrArg (fun r => (Option.join r).map _) (iterate_succ_inr hend _)
  | cons b w =>
    obtain ⟨t, n, hspells, hn⟩ := nextc_token h (plain_visible (hv b (List.mem_cons_self ..)))
    have hrounds : w.length + 1 < (src.at (w ++ t)).rounds := by
      simp only [Source.rounds, Source.at, List.length_append]
      omega
    obtain ⟨src', hfile, hat, hloop⟩ := word_loop hc hspells src hv [] hrounds
    have hopen : src.char b ≠ code '{' := plain_ne_code (hv b (List.mem_cons_self ..)) (by decide)
    refine ⟨src', n, hfile, hat, ?_⟩
    intro p
    rw [getstr_eq_word (hn p) hopen, hloop, Option.join_some, Option.map_some, List.nil_append,
      ofChars_eq hclean]

/-- The text in braces is read as it is, to the first brace that closes. -/
theorem braces_loop (hfile : src.file = true) (hw : '}'.toUInt8 ∉ w) (str : List UInt8) {m : Nat}
    (hm : w.length < m) :
    iterate bracesBody m ((srcGetc (src.at (w ++ '}'.toUInt8 :: t))).1,
      (srcGetc (src.at (w ++ '}'.toUInt8 :: t))).2, str) = some (src.at t, str ++ w) := by
  induction w generalizing str m with
  | nil =>
    obtain ⟨m, rfl⟩ : ∃ j, m = j + 1 := ⟨m - 1, by omega⟩
    rw [List.nil_append, getc_cons (holds_at src _), List.append_nil]
    refine iterate_succ_inr ?_ m
    have hcode : src.char '}'.toUInt8 = code '}' := (char_eq_code (by decide)).mpr rfl
    rw [bracesBody, if_neg fun h => h.1 hcode]
    rfl
  | cons x w ih =>
    rw [List.length_cons] at hm
    obtain ⟨m, rfl⟩ : ∃ j, m = j + 1 := ⟨m - 1, by omega⟩
    rw [List.mem_cons, not_or] at hw
    have hclose : src.char x ≠ code '}' := by
      rw [Ne, char_eq_code (by decide)]
      exact fun heq => hw.1 heq.symm
    have heof : src.char x ≠ eof := by
      rw [Source.char, hfile, if_pos rfl]
      exact (Int.negSucc_lt_zero 0).trans_le (Int.natCast_nonneg _) |>.ne'
    rw [List.cons_append, getc_cons (holds_at src _)]
    have hround : ∀ s l, bracesBody (src.char x, s, l) = .inl ((srcGetc s).1, (srcGetc s).2, l ++ [x]) := by
      intro s l
      rw [bracesBody, if_pos ⟨hclose, heof⟩, toByte_char]
    rw [show (src.at (x :: (w ++ '}'.toUInt8 :: t))).char x = src.char x from rfl,
      iterate_succ_inl (hround _ _)]
    refine (ih hw.2 (str ++ [x]) (by omega)).trans ?_
    rw [List.append_assoc]
    rfl

/-- The tokens up to the first brace that closes are in the text up to it. -/
theorem Spells.split (h : Spells (inner ++ mark '}' :: toks) t)
    (hin : ∀ tok ∈ inner, '}'.toUInt8 ∉ tok) :
    ∃ t₁ t₂, t = t₁ ++ '}'.toUInt8 :: t₂ ∧ Spells inner t₁ ∧ Spells toks t₂ ∧ '}'.toUInt8 ∉ t₁ := by
  have hblank : ∀ {ws : List UInt8}, Blank ws → '}'.toUInt8 ∉ ws := fun hws hmem => by
    cases hws _ hmem
  induction inner generalizing t with
  | nil =>
    cases h with
    | cons hws ht => exact ⟨_, _, rfl, .nil hws, ht, hblank hws⟩
  | cons tok inner ih =>
    cases h with
    | @cons ws _ _ _ hws ht =>
      obtain ⟨t₁, t₂, rfl, h₁, h₂, hnot⟩ := ih ht fun tok' h' => hin tok' (List.mem_cons_of_mem _ h')
      refine ⟨ws ++ (tok ++ t₁), t₂, by simp, .cons hws h₁, h₂, ?_⟩
      simp only [List.mem_append, not_or]
      exact ⟨hblank hws, hin tok (List.mem_cons_self ..), hnot⟩

/-- No byte of the text is zero if none of the tokens is. -/
theorem Spells.clean (h : Spells toks t) (hclean : ∀ tok ∈ toks, 0 ∉ tok) : 0 ∉ t := by
  have hblank : ∀ {ws : List UInt8}, Blank ws → 0 ∉ ws := fun hws hmem => by
    cases hws _ hmem
  induction h with
  | nil hws => exact hblank hws
  | cons hws ht ih =>
    simp only [List.mem_append, not_or]
    exact ⟨hblank hws, hclean _ (List.mem_cons_self ..),
      ih fun tok htok => hclean tok (List.mem_cons_of_mem _ htok)⟩

/-- The text in braces is read up to the first brace that closes. -/
theorem getstr_braces (term : List Char) (hfile : src.file = true) (hin : ∀ tok ∈ inner, '}'.toUInt8 ∉ tok)
    (hclean : ∀ tok ∈ inner, 0 ∉ tok) (h : src.At (mark '{' :: (inner ++ mark '}' :: toks))) :
    ∃ raw src' n, Spells inner raw.chars ∧ src'.file = src.file ∧ src'.At toks ∧
      ∀ p, getstr term src p = some (raw, src', p.skip n) := by
  obtain ⟨t, n, hspells, hn⟩ := nextc_token h ⟨by decide, by decide⟩
  obtain ⟨t₁, t₂, rfl, h₁, h₂, hnot⟩ := hspells.split hin
  have hzero := h₁.clean hclean
  have hopen : src.char '{'.toUInt8 = code '{' := (char_eq_code (by decide)).mpr rfl
  refine ⟨⟨t₁, hzero⟩, src.at t₂, n, h₁, rfl, at_of_spells src h₂, ?_⟩
  intro p
  have hrounds : t₁.length < (srcGetc (src.at (t₁ ++ '}'.toUInt8 :: t₂))).2.rounds := by
    cases t₁ with
    | nil => simp [Source.rounds]
    | cons x t₁ =>
      rw [List.cons_append, getc_cons (holds_at src _)]
      simp only [Source.rounds, Source.at, List.length_append, List.length_cons]
      omega
  have hloop := braces_loop (t := t₂) hfile hnot [] hrounds
  simp only [getstr, hn, Option.bind_some, hopen, if_true]
  simp only [List.nil_append] at hloop ⊢
  rw [hloop, Option.map_some, ofChars_eq hzero]

end Tokens

end Frosk.Builder.Text
