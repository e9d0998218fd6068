import Mathlib.Tactic
import Frosk.Builder.Building
import Frosk.Builder.Positions
import Frosk.Builder.Directives

/-!
# The image builder: descriptions

What `parse_fsd` makes of the text of a tree of entries (`tokens`).

* `directory_follows` — the loop of `parse_directory` makes the entries one after the other,
  each with its own fields, where no directory with entries is inside of another (`Flat`).
* `directory_never` — otherwise the contents of the outer directory end too early, a brace is
  left over, and no directive begins with that.
* `text_builds_iff` — the tree is built and nothing is reported, exactly if it is flat and the
  calls for its entries return; `flat_text_built` says that they do where the tree fits in the
  first metadata block, and that it is under the root then.
-/

namespace Frosk.Builder.Text

open Lib Fs

-- ---------------------------------------------------------------------------
-- Trees
-- ---------------------------------------------------------------------------

/-- The contents of a directory, which is written if there are any. -/
def braces : Fsd → List (List UInt8) → List (List UInt8)
  | .done, _ => []
  | _, toks => mark ',' :: contentsField.chars :: mark '=' :: (mark '{' :: (toks ++ [mark '}']))

/-- A tree in the syntax of description files. -/
def tokens : Fsd → List (List UInt8)
  | .done => []
  | .file fields actual rest =>
    head .f fields.name ++ (word actualField actual ++ (attr fields ++ mark ']' :: tokens rest))
  | .dir fields contents rest =>
    head .d fields.name ++ (braces contents (tokens contents) ++ (attr fields ++ mark ']' :: tokens rest))
  | .indir fields target rest =>
    head .i fields.name ++ (word targetField target ++ (attr fields ++ mark ']' :: tokens rest))

/-- No string has white space or a mark in it, and permissions have the letters there are. -/
def Clean : Fsd → Prop
  | .done => True
  | .file fields actual rest => CleanFields fields ∧ Plain actual ∧ Clean rest
  | .dir fields contents rest => CleanFields fields ∧ Clean contents ∧ Clean rest
  | .indir fields target rest => CleanFields fields ∧ Plain target ∧ Clean rest

/-- The contents of the directories that have entries. -/
def nested : Fsd → List Fsd
  | .done => []
  | .file _ _ rest => nested rest
  | .dir _ .done rest => nested rest
  | .dir _ contents rest => contents :: nested rest
  | .indir _ _ rest => nested rest

/-- No directory with entries is inside of another directory. -/
def Flat (t : Fsd) : Prop := ∀ contents ∈ nested t, nested contents = []

/-- The entries of a directory. -/
def entries : Fsd → Nat
  | .done => 0
  | .file _ _ rest => entries rest + 1
  | .dir _ _ rest => entries rest + 1
  | .indir _ _ rest => entries rest + 1

-- ---------------------------------------------------------------------------
-- confirm
-- ---------------------------------------------------------------------------

/-- The parser goes on as the calls for the entries do, which leave an image or do not return,
and reports nothing new. -/
def Follows {α : Type} (f : Parser → α) (x : Option α) (y : Option Image) (errors : List Report) : Prop :=
  (y = none → x = none) ∧ ∀ image, y = some image → ∃ line, x = some (f ⟨image, line, errors⟩)

section Following

variable {α β : Type} {f : Parser → α} {g : Parser → β} {x : Option α} {y : Option Image}
  {errors : List Report}

/-- A step that only changes the parser follows one that leaves the image. -/
theorem follows_some (p : Parser) : Follows f (some (f p)) (some p.image) p.errors :=
  ⟨nofun, fun _ h => ⟨p.line, by rw [← Option.some.inj h]⟩⟩

/-- Two steps after one another. -/
theorem Follows.bind {c : α → Option β} {d : Image → Option Image} (h : Follows f x y errors)
    (hnext : ∀ p, p.errors = errors → Follows g (c (f p)) (d p.image) errors) :
    Follows g (x.bind c) (y.bind d) errors := by
  cases y with
  | none =>
    rw [h.1 rfl]
    exact ⟨fun _ => rfl, nofun⟩
  | some image =>
    obtain ⟨line, hline⟩ := h.2 image rfl
    rw [hline]
    exact hnext ⟨image, line, errors⟩ rfl

/-- A last step that has nothing to do with the image. -/
theorem Follows.map (h : Follows f x y errors) {c : α → β} (hc : ∀ p, p.errors = errors →
    ∃ line, c (f p) = g { p with line := line }) : Follows g (x.map c) y errors := by
  refine ⟨fun hy => by rw [h.1 hy]; rfl, fun image hy => ?_⟩
  obtain ⟨line, hline⟩ := h.2 image hy
  obtain ⟨line', hline'⟩ := hc ⟨image, line, errors⟩ rfl
  exact ⟨line', by rw [hline, Option.map_some, hline']⟩

/-- A call that both make. -/
theorem follows_call {γ : Type} {call : Option γ} {c : γ → Option α} {d : γ → Option Image}
    (h : ∀ r, Follows f (c r) (d r) errors) :
    Follows f (call.bind c) (call.bind d) errors := by
  cases call with
  | none => exact ⟨fun _ => rfl, nofun⟩
  | some r => exact h r

end Following

section Confirming

variable {H : Host} {k : Nat} {sub : Source → Ptr → Parser → Option Parser} {par nd : Ptr} {p : Parser}
  {fields : Fields}

/-- The permissions and the owner, as the description has them. -/
theorem confirmCommon_follows (hclean : CleanFields fields) (nd : Ptr) (p : Parser) :
    Follows id (confirmCommon H k fields nd p) (Builder.confirmCommon H k fields nd p.image) p.errors := by
  have hnone : fields.perm.toList.flatMap unknownPerms = [] := by
    rw [List.flatMap_eq_nil_iff]
    intro v hv
    exact (hclean.perm v (Option.mem_toList.mp hv)).2
  rw [confirmCommon, hnone]
  refine ⟨fun hy => by rw [hy]; rfl, fun image hy => ⟨p.line, ?_⟩⟩
  rw [hy]
  simp

/-- A directive of a file, as the description has it. -/
theorem fconfirm_follows (hclean : CleanFields fields) (actual : CStr) (par : Ptr) (p : Parser) :
    Follows (true, ·) (confirmDirective H k sub (made .f par fields.name (some actual) fields) p)
      (Builder.parseDirectory H k (.file fields actual .done) par p.image) p.errors := by
  obtain ⟨hcls, hpar, h₀, h₁, h₂, h₃⟩ := made_eq .f par fields.name (some actual) fields
  simp only [confirmDirective, hcls, fconfirm, h₀, h₁, h₂, h₃, hpar, Builder.parseDirectory,
    Option.bind_eq_bind]
  refine follows_call ?_
  intro r
  refine (confirmCommon_follows hclean r.2 { p with image := r.1 }).bind ?_
  intro q hq
  rw [← hq]
  exact follows_some q

/-- A directive of an indirect entry, as the description has it. -/
theorem iconfirm_follows (hclean : CleanFields fields) (target : CStr) (par : Ptr) (p : Parser) :
    Follows (true, ·) (confirmDirective H k sub (made .i par fields.name (some target) fields) p)
      (Builder.parseDirectory H k (.indir fields target .done) par p.image) p.errors := by
  obtain ⟨hcls, hpar, h₀, h₁, h₂, h₃⟩ := made_eq .i par fields.name (some target) fields
  simp only [confirmDirective, hcls, iconfirm, h₀, h₁, h₂, h₃, hpar, Builder.parseDirectory,
    Option.bind_eq_bind]
  refine follows_call ?_
  intro r
  refine (confirmCommon_follows hclean r.2 { p with image := r.1 }).bind ?_
  intro q hq
  rw [← hq]
  exact follows_some q

/-- A directory, given what becomes of its contents. -/
theorem dconfirm_follows (hclean : CleanFields fields) {contents : Fsd} {second : Option CStr}
    (hnone : second = none → contents = .done)
    (hsome : ∀ raw ∈ second, ∀ nd p, Follows id (sub (sourceString raw) nd p)
      (Builder.parseDirectory H k contents nd p.image) p.errors) (par : Ptr) (p : Parser) :
    Follows (true, ·) (confirmDirective H k sub (made .d par fields.name second fields) p)
      (Builder.parseDirectory H k (.dir fields contents .done) par p.image) p.errors := by
  obtain ⟨hcls, hpar, h₀, h₁, h₂, h₃⟩ := made_eq .d par fields.name second fields
  simp only [confirmDirective, hcls, dconfirm, h₀, h₁, h₂, h₃, hpar, Builder.parseDirectory,
    Option.bind_eq_bind]
  refine follows_call ?_
  intro r
  refine (confirmCommon_follows hclean r.2 { p with image := r.1 }).bind ?_
  intro q hq
  have hq' : q.errors = p.errors := hq
  rw [← hq']
  cases second with
  | none =>
    rw [hnone rfl]
    exact follows_some q
  | some raw =>
    refine (hsome raw rfl r.2 q).bind ?_
    intro q' hq'
    rw [← hq']
    exact follows_some q'

end Confirming

-- ---------------------------------------------------------------------------
-- parse_directory
-- ---------------------------------------------------------------------------

section Directories

variable {H : Host} {k : Nat} {sub : Source → Ptr → Parser → Option Parser} {src : Source}
  {file : Bool} {dir : Ptr} {rest : List (List UInt8)} {cls : Class} {fields : Fields} {t : Fsd}

/-- Behind the value of a field there comes a comma or the closing bracket. -/
theorem behind_end (fields : Fields) (rest : List (List UInt8)) :
    Behind (attr fields ++ mark ']' :: rest) := by
  rw [attr, List.append_assoc]
  exact behind_option (behind_option ⟨']', rest, rfl, .inr rfl⟩ _) _

/-- A directive, given what its class makes of it. -/
theorem parseNext_follows (hcls : cls ≠ .v) {second : List (List UInt8)} {Q : Option CStr → Prop}
    (hclean : CleanFields fields)
    (hsecond : Sets (code cls.mark) cls file second (attr fields ++ mark ']' :: rest) 1 Q)
    (hbehind : Behind (second ++ (attr fields ++ mark ']' :: rest))) {Y : Ptr → Image → Option Image}
    (hconfirm : ∀ o, Q o → ∀ par p, Follows (true, ·)
      (confirmDirective H k sub (made cls par fields.name o fields) p) (Y par p.image) p.errors)
    (hfile : src.file = file)
    (hat : src.At (head cls fields.name ++ (second ++ (attr fields ++ mark ']' :: rest)))) :
    ∃ src', src'.file = file ∧ src'.At rest ∧ ∀ par p,
      Follows (src', ·) (parseNext H k sub src par p) (Y par p.image) p.errors := by
  obtain ⟨o, src', n, n', hQ, hfile', hat', hparse⟩ :=
    parseNext_entry hcls hclean hclean.name hsecond hbehind hfile hat
  refine ⟨src', hfile', hat', ?_⟩
  intro par p
  rw [hparse]
  exact (hconfirm o hQ par (p.skip n)).map fun q _ => ⟨q.line + n', rfl⟩

/-- A round of the loop: an entry, and then the others. -/
theorem directory_round {whole one others : Fsd} (happend : one.append others = whole)
    {tail : List (List UInt8)} {name : CStr} (hhead : tokens whole = head cls name ++ tail)
    (hnext : ∀ src : Source, src.file = file → src.At (tokens whole) →
      ∃ src', src'.file = file ∧ src'.At (tokens others) ∧ ∀ par p,
        Follows (src', ·) (parseNext H k sub src par p) (Builder.parseDirectory H k one par p.image)
          p.errors) {m : Nat}
    (hothers : ∀ src : Source, src.file = file → src.At (tokens others) → ∀ p,
      Follows id (iterate (directoryBody H k sub dir) m (src, p)).join
        (Builder.parseDirectory H k others dir p.image) p.errors)
    (hfile : src.file = file) (hat : src.At (tokens whole)) (p : Parser) :
    Follows id (iterate (directoryBody H k sub dir) (m + 1) (src, p)).join
      (Builder.parseDirectory H k whole dir p.image) p.errors := by
  have hat' := hat
  rw [hhead] at hat'
  obtain ⟨src₁, n, hfile₁, hat₁, hround⟩ :=
    directoryBody_mark hat' (mark_visible_cls cls) (mark_ascii_cls cls)
  have hsame : src₁.At (tokens whole) := by
    rw [hhead]
    exact hat₁
  obtain ⟨src₂, hfile₂, hat₂, hparse⟩ := hnext src₁ (hfile₁.trans hfile) hsame
  obtain ⟨hnone, hsome⟩ := hround H k sub dir p
  have hfollows := hparse dir (p.skip n)
  rw [← happend, parseDirectory_append]
  cases hone : Builder.parseDirectory H k one dir p.image with
  | none =>
    rw [iterate_succ_inr (hnone (hfollows.1 hone))]
    exact ⟨fun _ => rfl, nofun⟩
  | some image =>
    obtain ⟨line, hline⟩ := hfollows.2 image hone
    rw [iterate_succ_inl (hsome _ hline)]
    exact hothers src₂ hfile₂ hat₂ ⟨image, line, p.errors⟩

/-- A directory with entries is first among those that are nested. -/
theorem nested_dir {contents : Fsd} (hne : contents ≠ .done) (fields : Fields) (others : Fsd) :
    nested (.dir fields contents others) = contents :: nested others := by
  cases contents with
  | done => exact absurd rfl hne
  | file _ _ _ => rfl
  | dir _ _ _ => rfl
  | indir _ _ _ => rfl

/-- The contents of a directory that has any are written in braces. -/
theorem braces_of_ne {contents : Fsd} (hne : contents ≠ .done) (toks : List (List UInt8)) :
    braces contents toks =
      mark ',' :: contentsField.chars :: mark '=' :: (mark '{' :: (toks ++ [mark '}'])) := by
  cases contents with
  | done => exact absurd rfl hne
  | file _ _ _ => rfl
  | dir _ _ _ => rfl
  | indir _ _ _ => rfl

/-- A byte that is in none of the tokens. -/
def Free (b : UInt8) (toks : List (List UInt8)) : Prop := ∀ tok ∈ toks, b ∉ tok

/-- A byte is in none of the tokens if it is not in the first and not in the rest. -/
theorem free_cons {b : UInt8} {tok : List UInt8} {toks : List (List UInt8)} :
    Free b (tok :: toks) ↔ b ∉ tok ∧ Free b toks := List.forall_mem_cons

theorem free_append {b : UInt8} {toks toks' : List (List UInt8)} :
    Free b (toks ++ toks') ↔ Free b toks ∧ Free b toks' := List.forall_mem_append

/-- A byte that neither words nor the marks of a directive have. -/
structure Outside (b : UInt8) : Prop where
  words : ∀ v : CStr, Plain v → b ∉ v.chars
  marks : b ∉ [':', '[', '=', ',', ']', 'f', 'd', 'i', 'v'].map Char.toUInt8

theorem outside_zero : Outside 0 := ⟨fun v _ => v.clean, by decide⟩

/-- The closing brace is in no string and no other mark. -/
theorem outside_close : Outside '}'.toUInt8 := by
  refine ⟨?_, by decide⟩
  intro v hv hmem
  cases hv _ hmem

section Outside

variable {b : UInt8} (hb : Outside b)

include hb

/-- Such a byte is in none of the other marks. -/
theorem Outside.mark {c : Char} (hc : c ∈ [':', '[', '=', ',', ']', 'f', 'd', 'i', 'v']) : b ∉ mark c := by
  rw [List.mem_singleton]
  rintro rfl
  exact hb.marks (List.mem_map_of_mem hc)

theorem Outside.word {l v : CStr} (hl : Plain l) (hv : Plain v) : Free b (word l v) := by
  rw [Text.word, free_cons, free_cons, free_cons, free_cons]
  exact ⟨hb.mark (by decide), hb.words l hl, hb.mark (by decide), hb.words v hv, nofun⟩

/-- Such a byte is in no field that may be left out. -/
theorem Outside.option {l : CStr} {o : Option CStr} (hl : Plain l) (ho : ∀ v ∈ o, Plain v) :
    Free b (option l o) := by
  cases o with
  | none => exact nofun
  | some v => exact hb.word hl (ho v rfl)

theorem Outside.attr (hclean : CleanFields fields) : Free b (attr fields) := by
  rw [Text.attr, free_append]
  exact ⟨hb.option (by decide) fun v hv => (hclean.perm v hv).1, hb.option (by decide) hclean.owner⟩

/-- Nor is it in the head of a directive. -/
theorem Outside.head (cls : Class) {name : CStr} (hname : Plain name) : Free b (head cls name) := by
  rw [Text.head, free_cons, free_cons, free_cons, free_cons, free_cons, free_cons]
  refine ⟨?_, hb.mark (by decide), hb.mark (by decide), hb.words _ (by decide), hb.mark (by decide),
    hb.words name hname, nofun⟩
  cases cls <;> exact hb.mark (by decide)

/-- Such a byte is in a brace of the tree, if anywhere. -/
theorem Outside.tokens (hclean : Clean t)
    (hbraces : nested t = [] ∨ b ∉ Text.mark '{' ∧ b ∉ Text.mark '}') : Free b (tokens t) := by
  induction t with
  | done => exact nofun
  | file fields actual others ih =>
    obtain ⟨hf, hactual, hothers⟩ := hclean
    rw [Text.tokens, free_append, free_append, free_append, free_cons]
    exact ⟨hb.head .f hf.name, hb.word (by decide) hactual, hb.attr hf, hb.mark (by decide),
      ih hothers hbraces⟩
  | indir fields target others ih =>
    obtain ⟨hf, htarget, hothers⟩ := hclean
    rw [Text.tokens, free_append, free_append, free_append, free_cons]
    exact ⟨hb.head .i hf.name, hb.word (by decide) htarget, hb.attr hf, hb.mark (by decide),
      ih hothers hbraces⟩
  | dir fields contents others ihc ih =>
    obtain ⟨hf, hcontents, hothers⟩ := hclean
    rw [Text.tokens, free_append, free_append, free_append, free_cons]
    by_cases hne : contents = .done
    · subst hne
      exact ⟨hb.head .d hf.name, nofun, hb.attr hf, hb.mark (by decide), ih hothers hbraces⟩
    · rw [nested_dir hne] at hbraces
      have hmarks := hbraces.resolve_left (List.cons_ne_nil _ _)
      rw [braces_of_ne hne, free_cons, free_cons, free_cons, free_cons, free_append, free_cons]
      exact ⟨hb.head .d hf.name, ⟨hb.mark (by decide), hb.words _ (by decide), hb.mark (by decide),
        hmarks.1, ihc hcontents (.inr hmarks), hmarks.2, nofun⟩, hb.attr hf, hb.mark (by decide),
        ih hothers (.inr hmarks)⟩

end Outside

/-- No text of a tree has a terminator in it. -/
theorem tokens_clean (hclean : Clean t) : Free 0 (tokens t) :=
  outside_zero.tokens hclean (.inr ⟨by decide, by decide⟩)

/-- Without a directory that has entries there is no closing brace. -/
theorem tokens_open (hclean : Clean t) (hnested : nested t = []) : Free '}'.toUInt8 (tokens t) :=
  outside_close.tokens hclean (.inl hnested)

-- ---------------------------------------------------------------------------
-- Trees that are built
-- ---------------------------------------------------------------------------

/-- The contents of a directory are read as they are, up to the first brace that closes. -/
theorem sets_braces {type : Int} {inner : List (List UInt8)} (hopen : Free '}'.toUInt8 inner)
    (hzero : Free 0 inner) :
    Sets type .d true (mark ',' :: contentsField.chars :: mark '=' :: (mark '{' :: (inner ++ [mark '}'])))
      rest 1 fun o => ∃ raw, o = some raw ∧ Spells inner raw.chars :=
  sets_value (by decide) (by decide) (yields_braces hopen hzero)

/-- The contents of directories are clean too. -/
theorem clean_nested (hclean : Clean t) : ∀ contents ∈ nested t, Clean contents := by
  induction t with
  | done => exact nofun
  | file fields actual others ih => exact ih hclean.2.2
  | indir fields target others ih => exact ih hclean.2.2
  | dir fields contents others ihc ih =>
    by_cases hne : contents = .done
    · subst hne
      exact ih hclean.2.2
    · rw [nested_dir hne, List.forall_mem_cons]
      exact ⟨hclean.2.1, ih hclean.2.2⟩

/-- The loop makes the entries that are written, where the contents of directories are parsed
right and have no others in them. -/
theorem directory_follows (hclean : Clean t) (hflat : Flat t)
    (hsub : ∀ contents ∈ nested t, ∀ raw : CStr, Spells (tokens contents) raw.chars → ∀ nd p,
      Follows id (sub (sourceString raw) nd p) (Builder.parseDirectory H k contents nd p.image) p.errors)
    (hfile : src.file = file) (hkind : nested t = [] ∨ file = true) (hat : src.At (tokens t)) {m : Nat}
    (hm : entries t < m) (p : Parser) :
    Follows id (iterate (directoryBody H k sub dir) m (src, p)).join
      (Builder.parseDirectory H k t dir p.image) p.errors := by
  induction t generalizing src m p with
  | done =>
    obtain ⟨m, rfl⟩ : ∃ j, m = j + 1 := ⟨m - 1, by omega⟩
    obtain ⟨n, hpeek⟩ := peekc_end hat
    have hbody : directoryBody H k sub dir (src, p) = .inr (some (p.skip n)) := by
      simp [directoryBody, hpeek]
    rw [iterate_succ_inr hbody]
    exact follows_some (p.skip n)
  | file fields actual others ih =>
    obtain ⟨hf, hactual, hothers⟩ := hclean
    obtain ⟨m, rfl⟩ : ∃ j, m = j + 1 := ⟨m - 1, by omega⟩
    have happend : (Fsd.file fields actual .done).append others = .file fields actual others := rfl
    refine directory_round happend rfl (fun src hfile hat => ?_) (fun src hfile hat p =>
      ih hothers hflat hsub hfile hkind hat (Nat.lt_of_succ_lt_succ hm) p) hfile hat p
    refine parseNext_follows (by decide) hf
      (sets_word (by decide) (by decide) hactual (behind_end fields _)) ⟨',', _, rfl, .inl rfl⟩ ?_ hfile hat
    rintro o rfl par p
    exact fconfirm_follows hf actual par p
  | indir fields target others ih =>
    obtain ⟨hf, htarget, hothers⟩ := hclean
    obtain ⟨m, rfl⟩ : ∃ j, m = j + 1 := ⟨m - 1, by omega⟩
    have happend : (Fsd.indir fields target .done).append others = .indir fields target others := rfl
    refine directory_round happend rfl (fun src hfile hat => ?_) (fun src hfile hat p =>
      ih hothers hflat hsub hfile hkind hat (Nat.lt_of_succ_lt_succ hm) p) hfile hat p
    refine parseNext_follows (by decide) hf
      (sets_word (by decide) (by decide) htarget (behind_end fields _)) ⟨',', _, rfl, .inl rfl⟩ ?_ hfile hat
    rintro o rfl par p
    exact iconfirm_follows hf target par p
  | dir fields contents others ihc ih =>
    obtain ⟨hf, hcontents, hothers⟩ := hclean
    obtain ⟨m, rfl⟩ : ∃ j, m = j + 1 := ⟨m - 1, by omega⟩
    have happend : (Fsd.dir fields contents .done).append others = .dir fields contents others := rfl
    by_cases hne : contents = .done
    · subst hne
      refine directory_round happend rfl (fun src hfile hat => ?_) (fun src hfile hat p =>
        ih hothers hflat hsub hfile hkind hat (Nat.lt_of_succ_lt_succ hm) p) hfile hat p
      refine parseNext_follows (by decide) hf sets_none (behind_end fields _) ?_ hfile hat
      rintro o rfl par p
      exact dconfirm_follows hf (fun _ => rfl) (fun raw h => absurd h (Option.not_mem_none raw)) par p
    · rw [Flat, nested_dir hne, List.forall_mem_cons] at hflat
      rw [nested_dir hne, List.forall_mem_cons] at hsub
      rw [nested_dir hne] at hkind
      obtain rfl := hkind.resolve_left (List.cons_ne_nil _ _)
      refine directory_round happend rfl (fun src hfile hat => ?_) (fun src hfile hat p =>
        ih hothers hflat.2 hsub.2 hfile (.inr rfl) hat (Nat.lt_of_succ_lt_succ hm) p) hfile hat p
      rw [tokens, braces_of_ne hne] at hat
      refine parseNext_follows (by decide) hf
        (sets_braces (tokens_open hcontents hflat.1) (tokens_clean hcontents)) ⟨',', _, rfl, .inl rfl⟩ ?_
        hfile hat
      rintro o ⟨raw, rfl, hraw⟩ par p
      have hnone : some raw = none → contents = .done := fun h => absurd h (Option.some_ne_none raw)
      refine dconfirm_follows hf hnone (fun raw' hraw' => ?_) par p
      obtain rfl := Option.some.inj hraw'
      exact hsub.1 raw hraw

/-- The white space between the tokens only adds to the text. -/
theorem Spells.length_le {toks : List (List UInt8)} {text : List UInt8} (h : Spells toks text) :
    (toks.map List.length).sum ≤ text.length := by
  induction h with
  | nil hws => exact Nat.zero_le _
  | cons hws ht ih =>
    rw [List.map_cons, List.sum_cons, List.length_append, List.length_append]
    omega

/-- Every entry has a token of its own. -/
theorem entries_le (t : Fsd) : entries t ≤ ((tokens t).map List.length).sum := by
  induction t with
  | done => exact Nat.zero_le _
  | file fields actual others ih =>
    simp [entries, tokens, head]
    omega
  | dir fields contents others ihc ih =>
    simp [entries, tokens, head]
    omega
  | indir fields target others ih =>
    simp [entries, tokens, head]
    omega

/-- So the loop over the directives has rounds enough. -/
theorem entries_lt_rounds (hat : src.At (tokens t)) : entries t < src.rounds := by
  obtain ⟨text, hholds, hspells⟩ := hat
  exact (entries_le t).trans_lt (hspells.length_le.trans_lt hholds.rounds)

/-- Entries without others in them, from a file or from a string. -/
theorem parseDirectory_plain (hclean : Clean t) (hnested : nested t = []) (hat : src.At (tokens t))
    (depth : Nat) (p : Parser) :
    Follows id (parseDirectory H k (depth + 1) src dir p) (Builder.parseDirectory H k t dir p.image)
      p.errors := by
  refine directory_follows hclean ?_ ?_ rfl (.inl hnested) hat (entries_lt_rounds hat) p
  · rw [Flat, hnested]
    exact nofun
  · rw [hnested]
    exact nofun

/-- A flat tree, from a file. -/
theorem parseDirectory_flat (hclean : Clean t) (hflat : Flat t) (hfile : src.file = true)
    (hat : src.At (tokens t)) (depth : Nat) (p : Parser) :
    Follows id (parseDirectory H k (depth + 2) src dir p) (Builder.parseDirectory H k t dir p.image)
      p.errors := by
  refine directory_follows hclean hflat (fun contents hmem raw hraw nd p => ?_) hfile (.inr rfl) hat
    (entries_lt_rounds hat) p
  have hholds : (sourceString raw).Holds raw.chars := .inl ⟨rfl, rfl⟩
  exact parseDirectory_plain (clean_nested hclean contents hmem) (hflat contents hmem) ⟨_, hholds, hraw⟩
    depth p

-- ---------------------------------------------------------------------------
-- Trees that are not
-- ---------------------------------------------------------------------------

/-- Where the first brace closes in the contents of a directory, if one does: behind it are
fields of the directory it belongs to, more entries, and the end or another such brace. -/
theorem tokens_cut (hclean : Clean t) (hnested : nested t ≠ []) :
    ∃ inner fields others tail, tokens t = inner ++ mark '}' :: (attr fields ++ mark ']' ::
        (tokens others ++ tail)) ∧ Free '}'.toUInt8 inner ∧ Free 0 inner ∧ CleanFields fields ∧
      Clean others ∧ (tail = [] ∨ ∃ tail', tail = mark '}' :: tail') := by
  induction t with
  | done => exact absurd rfl hnested
  | file fields actual others ih =>
    obtain ⟨hf, hactual, hothers⟩ := hclean
    obtain ⟨inner, fields', others', tail, heq, hclose, hzero, hrest⟩ := ih hothers hnested
    have hfree : ∀ {b}, Outside b → Free b inner → Free b (head .f fields.name ++
        (word actualField actual ++ (attr fields ++ mark ']' :: inner))) := by
      intro b hb hin
      rw [free_append, free_append, free_append, free_cons]
      exact ⟨hb.head .f hf.name, hb.word (by decide) hactual, hb.attr hf, hb.mark (by decide), hin⟩
    refine ⟨_, fields', others', tail, ?_, hfree outside_close hclose, hfree outside_zero hzero, hrest⟩
    rw [tokens, heq]
    simp only [List.append_assoc, List.cons_append]
  | indir fields target others ih =>
    obtain ⟨hf, htarget, hothers⟩ := hclean
    obtain ⟨inner, fields', others', tail, heq, hclose, hzero, hrest⟩ := ih hothers hnested
    have hfree : ∀ {b}, Outside b → Free b inner → Free b (head .i fields.name ++
        (word targetField target ++ (attr fields ++ mark ']' :: inner))) := by
      intro b hb hin
      rw [free_append, free_append, free_append, free_cons]
      exact ⟨hb.head .i hf.name, hb.word (by decide) htarget, hb.attr hf, hb.mark (by decide), hin⟩
    refine ⟨_, fields', others', tail, ?_, hfree outside_close hclose, hfree outside_zero hzero, hrest⟩
    rw [tokens, heq]
    simp only [List.append_assoc, List.cons_append]
  | dir fields contents others ihc ih =>
    obtain ⟨hf, hcontents, hothers⟩ := hclean
    by_cases hne : contents = .done
    · subst hne
      obtain ⟨inner, fields', others', tail, heq, hclose, hzero, hrest⟩ := ih hothers hnested
      have hfree : ∀ {b}, Outside b → Free b inner → Free b (head .d fields.name ++
          (attr fields ++ mark ']' :: inner)) := by
        intro b hb hin
        rw [free_append, free_append, free_cons]
        exact ⟨hb.head .d hf.name, hb.attr hf, hb.mark (by decide), hin⟩
      refine ⟨_, fields', others', tail, ?_, hfree outside_close hclose, hfree outside_zero hzero, hrest⟩
      rw [tokens, heq, braces]
      simp only [List.append_assoc, List.cons_append, List.nil_append]
    · have hfree : ∀ {b inner}, Outside b → b ≠ '{'.toUInt8 → Free b inner → Free b (head .d fields.name ++
          mark ',' :: contentsField.chars :: mark '=' :: mark '{' :: inner) := by
        intro b inner hb hopen hin
        rw [free_append, free_cons, free_cons, free_cons, free_cons]
        exact ⟨hb.head .d hf.name, hb.mark (by decide), hb.words _ (by decide), hb.mark (by decide),
          fun hmem => hopen (List.mem_singleton.mp hmem), hin⟩
      by_cases hcut : nested contents = []
      · refine ⟨_, fields, others, [], ?_, hfree outside_close (by decide) (tokens_open hcontents hcut),
          hfree outside_zero (by decide) (tokens_clean hcontents), hf, hothers, .inl rfl⟩
        rw [tokens, braces_of_ne hne]
        simp only [List.append_assoc, List.cons_append, List.nil_append, List.append_nil]
      · obtain ⟨inner, fields', others', tail, heq, hclose, hzero, hf', hothers', htail⟩ := ihc hcontents hcut
        refine ⟨_, fields', others', tail ++ mark '}' :: (attr fields ++ mark ']' :: tokens others), ?_,
          hfree outside_close (by decide) hclose, hfree outside_zero (by decide) hzero, hf', hothers',
          .inr ?_⟩
        · rw [tokens, braces_of_ne hne, heq]
          simp only [List.append_assoc, List.cons_append, List.nil_append]
        · rcases htail with rfl | ⟨tail', rfl⟩
          · exact ⟨_, rfl⟩
          · exact ⟨_, rfl⟩

/-- The parser is at a directive, and behind it at the entries `others` and at `tail`. -/
structure Reads (toks : List (List UInt8)) (others : Fsd) (tail : List (List UInt8)) : Prop where
  clean : Clean others
  entry : ∃ cls name second fields Q, cls ≠ Class.v ∧ Plain name ∧ CleanFields fields ∧
    Sets (code cls.mark) cls true second (attr fields ++ mark ']' :: (tokens others ++ tail)) 1 Q ∧
    Behind (second ++ (attr fields ++ mark ']' :: (tokens others ++ tail))) ∧
    toks = head cls name ++ (second ++ (attr fields ++ mark ']' :: (tokens others ++ tail)))

/-- What the first directive of a tree is for the parser. It goes on behind it, unless there
are directories with entries in it: then at a brace that was left over. -/
theorem tokens_reads (hclean : Clean t) (hne : t ≠ .done) (tail : List (List UInt8)) :
    ∃ others tail', Reads (tokens t ++ tail) others tail' ∧
      (tail' = tail ∧ (Flat others → Flat t) ∨ ∃ tail₁, tail' = mark '}' :: tail₁) := by
  cases t with
  | done => exact absurd rfl hne
  | file fields actual others =>
    obtain ⟨hf, hactual, hothers⟩ := hclean
    refine ⟨others, tail, ⟨hothers, .f, fields.name, word actualField actual, fields, (· = some actual),
      by decide, hf.name, hf, ?_, ⟨',', _, rfl, .inl rfl⟩, ?_⟩, .inl ⟨rfl, id⟩⟩
    · exact sets_word (by decide) (by decide) hactual (behind_end fields _)
    · simp only [tokens, List.append_assoc, List.cons_append]
  | indir fields target others =>
    obtain ⟨hf, htarget, hothers⟩ := hclean
    refine ⟨others, tail, ⟨hothers, .i, fields.name, word targetField target, fields, (· = some target),
      by decide, hf.name, hf, ?_, ⟨',', _, rfl, .inl rfl⟩, ?_⟩, .inl ⟨rfl, id⟩⟩
    · exact sets_word (by decide) (by decide) htarget (behind_end fields _)
    · simp only [tokens, List.append_assoc, List.cons_append]
  | dir fields contents others =>
    obtain ⟨hf, hcontents, hothers⟩ := hclean
    by_cases hdone : contents = .done
    · subst hdone
      refine ⟨others, tail, ⟨hothers, .d, fields.name, [], fields, (· = none), by decide, hf.name, hf,
        sets_none, behind_end fields _, ?_⟩, .inl ⟨rfl, id⟩⟩
      simp only [tokens, braces, List.append_assoc, List.cons_append, List.nil_append]
    · by_cases hcut : nested contents = []
      · refine ⟨others, tail, ⟨hothers, .d, fields.name, _, fields, _, by decide, hf.name, hf,
          sets_braces (tokens_open hcontents hcut) (tokens_clean hcontents), ⟨',', _, rfl, .inl rfl⟩, ?_⟩,
          .inl ⟨rfl, fun hflat => ?_⟩⟩
        · simp only [tokens, braces_of_ne hdone, List.append_assoc, List.cons_append, List.nil_append]
        · rw [Flat, nested_dir hdone, List.forall_mem_cons]
          exact ⟨hcut, hflat⟩
      · -- the contents end early, and the fields of an inner directory are taken for this one's
        obtain ⟨inner, fields', others', tail', heq, hclose, hzero, hf', hothers', htail⟩ :=
          tokens_cut hcontents hcut
        refine ⟨others', tail' ++ mark '}' :: (attr fields ++ mark ']' :: (tokens others ++ tail)),
          ⟨hothers', .d, fields.name, _, fields', _, by decide, hf.name, hf', sets_braces hclose hzero,
            ⟨',', _, rfl, .inl rfl⟩, ?_⟩, .inr ?_⟩
        · simp only [tokens, braces_of_ne hdone, heq, List.append_assoc, List.cons_append, List.nil_append]
        · rcases htail with rfl | ⟨tail₁, rfl⟩
          · exact ⟨_, rfl⟩
          · exact ⟨_, rfl⟩

/-- A tree that is not flat, or a brace that was left over: the loop does not leave. -/
theorem directory_never (hclean : Clean t) {tail : List (List UInt8)}
    (htail : tail = [] ∧ ¬ Flat t ∨ ∃ tail', tail = mark '}' :: tail') (hfile : src.file = true)
    (hat : src.At (tokens t ++ tail)) (m : Nat) (p : Parser) :
    (iterate (directoryBody H k sub dir) m (src, p)).join = none := by
  induction m generalizing t tail src p with
  | zero => rfl
  | succ m ih =>
    by_cases hdone : t = .done
    · subst hdone
      rcases htail with ⟨-, hflat⟩ | ⟨tail', rfl⟩
      · exact absurd nofun hflat
      · obtain ⟨src', n, hfile', hat', hround⟩ := directoryBody_mark hat ⟨by decide, by decide⟩
          (by decide)
        rw [iterate_succ_inr ((hround H k sub dir p).1 (parseNext_stray hat' ..))]
        rfl
    · obtain ⟨others, tail', ⟨hothers, cls, name, second, fields, Q, hcls, hname, hf, hsets, hbehind, heq⟩,
        hrest⟩ := tokens_reads hclean hdone tail
      rw [heq] at hat
      obtain ⟨src₁, n, hfile₁, hat₁, hround⟩ :=
        directoryBody_mark hat (mark_visible_cls cls) (mark_ascii_cls cls)
      obtain ⟨o, src₂, n₁, n₂, -, hfile₂, hat₂, hparse⟩ := parseNext_entry hcls hf hname hsets hbehind
        (hfile₁.trans hfile) hat₁
      obtain ⟨hnone, hsome⟩ := hround H k sub dir p
      cases hnext : parseNext H k sub src₁ dir (p.skip n) with
      | none =>
        rw [iterate_succ_inr (hnone hnext)]
        rfl
      | some r =>
        rw [iterate_succ_inl (hsome r hnext)]
        -- whatever the class makes of it, the source is behind the directive
        have hsrc : r.1 = src₂ := by
          rw [hparse] at hnext
          obtain ⟨_, -, rfl⟩ := Option.map_eq_some_iff.mp hnext
          rfl
        obtain ⟨src₃, q⟩ := r
        obtain rfl : src₃ = src₂ := hsrc
        refine ih hothers ?_ hfile₂ hat₂ q
        rcases hrest with ⟨rfl, hflat⟩ | htail'
        · exact htail.imp (And.imp_right fun hnot h => hnot (hflat h)) id
        · exact .inr htail'

end Directories

-- ---------------------------------------------------------------------------
-- parse_fsd
-- ---------------------------------------------------------------------------

section Texts

variable {t : Fsd} {text : List UInt8}

/-- Before the parse the source is at the first token. -/
theorem at_start (htext : Spells (tokens t) text) : (sourceFile text).At (tokens t) :=
  ⟨text, .inl ⟨rfl, rfl⟩, htext⟩

/-- Where no directory with entries is inside another one, the text builds the tree. -/
theorem parseFsd_flat (hclean : Clean t) (htext : Spells (tokens t) text) (hflat : Flat t) (H : Host)
    (k bs sb rperm : Nat) (rowner : Option CStr) (s : Image) :
    Follows id (parseFsd H k bs sb rperm rowner text s) (Builder.parseFsd H k bs sb rperm rowner t s) [] := by
  simp only [parseFsd, Builder.parseFsd, Option.bind_eq_bind]
  refine follows_call fun m => follows_call fun root => follows_call fun owner => ?_
  cases hlen : text.length with
  | zero =>
    -- there is nothing in the text
    have hnone : entries t = 0 := by
      have hle := (entries_le t).trans htext.length_le
      omega
    have hdone : t = .done := by
      cases t with
      | done => rfl
      | file _ _ _ => cases hnone
      | dir _ _ _ => cases hnone
      | indir _ _ _ => cases hnone
    subst hdone
    exact parseDirectory_plain hclean rfl (at_start htext) 0 ⟨_, 1, []⟩
  | succ depth => exact parseDirectory_flat hclean hflat rfl (at_start htext) depth ⟨_, 1, []⟩

/-- Where there is one, the parse does not return, with any number of rounds. -/
theorem parseFsd_never (hclean : Clean t) (htext : Spells (tokens t) text) (hflat : ¬ Flat t) (H : Host)
    (k bs sb rperm : Nat) (rowner : Option CStr) (s : Image) :
    parseFsd H k bs sb rperm rowner text s = none := by
  have hat : (sourceFile text).At (tokens t ++ []) := by
    rw [List.append_nil]
    exact at_start htext
  simp only [parseFsd, Option.bind_eq_bind]
  refine Option.bind_eq_none_iff.mpr fun m _ => Option.bind_eq_none_iff.mpr fun root _ =>
    Option.bind_eq_none_iff.mpr fun owner _ => ?_
  exact directory_never hclean (.inl ⟨rfl, hflat⟩) rfl hat _ _

/-- **Descriptions express trees.** On the text of a tree, `parse_fsd` makes exactly its entries
and reports nothing, if and only if no directory with entries is inside of another and the
calls for the entries return. -/
theorem text_builds_iff (hclean : Clean t) (htext : Spells (tokens t) text) (H : Host)
    (bs sb rperm : Nat) (rowner : Option CStr) (s : Image) :
    (∃ k out, parseFsd H k bs sb rperm rowner text s = some out ∧ out.errors = [] ∧
      Builder.parseFsd H k bs sb rperm rowner t s = some out.image) ↔
    Flat t ∧ ∃ k, (Builder.parseFsd H k bs sb rperm rowner t s).isSome := by
  constructor
  · rintro ⟨k, out, hparse, -, hbuild⟩
    refine ⟨?_, k, by rw [hbuild]; rfl⟩
    by_contra hflat
    rw [parseFsd_never hclean htext hflat] at hparse
    cases hparse
  · rintro ⟨hflat, k, hsome⟩
    obtain ⟨image, himage⟩ := Option.isSome_iff_exists.mp hsome
    obtain ⟨line, hline⟩ := (parseFsd_flat hclean htext hflat H k bs sb rperm rowner s).2 image himage
    exact ⟨k, _, hline, rfl, himage⟩

/-- The image that is built has the tree under its root, where the tree fits in the first
metadata block. -/
theorem flat_text_built (hclean : Clean t) (htext : Spells (tokens t) text) (hflat : Flat t) (H : Host)
    (rperm : Nat) (rowner : Option CStr) (s : Image) (hshort : Short (rowner.toFinset ∪ t.strings))
    (hread : t.Readable H) (hhigh : 3 + t.blocks H < wordSize)
    (hroom : 32 + t.room + need (rowner.toFinset ∪ t.strings) ∅ ≤ BlockSize.default.room) :
    ∃ k out m ns ds es rem K, parseFsd H k 0x1000 1 rperm rowner text s = some out ∧ out.errors = [] ∧
      Built H out.image t ⟨rperm % 0x10000, rowner⟩ m ns ds es rem K := by
  obtain ⟨s', m, ns, ds, es, rem, K, ⟨k, hk⟩, hbuilt⟩ :=
    parseFsd_spec H rperm rowner t s hshort hread hhigh hroom
  obtain ⟨line, hline⟩ := (parseFsd_flat hclean htext hflat H k 0x1000 1 rperm rowner s).2 s' (hk k le_rfl)
  exact ⟨k, _, m, ns, ds, es, rem, K, hline, rfl, hbuilt⟩

end Texts

/-- Checks that a text spells tokens. -/
def spells : List (List UInt8) → List UInt8 → Bool
  | [], t => t.all fun b => isspace b.toNat
  | tok :: toks, t =>
    let t := t.dropWhile fun b => isspace b.toNat
    tok.isPrefixOf t && spells toks (t.drop tok.length)

/-- The check of a layout is sound. -/
theorem spells_of_check {toks : List (List UInt8)} {t : List UInt8} (h : spells toks t = true) :
    Spells toks t := by
  induction toks generalizing t with
  | nil => exact .nil fun b hb => List.all_eq_true.mp h b hb
  | cons tok toks ih =>
    rw [spells, Bool.and_eq_true, List.isPrefixOf_iff_prefix] at h
    obtain ⟨⟨t', ht'⟩, hrest⟩ := h
    have hblank : Blank (t.takeWhile fun b => isspace b.toNat) := by
      intro b hb
      have hspace := List.mem_takeWhile_imp hb
      exact hspace
    rw [← ht', List.drop_left] at hrest
    rw [← List.takeWhile_append_dropWhile (p := fun b : UInt8 => isspace b.toNat) (l := t), ← ht']
    exact .cons hblank (ih hrest)

/-- A host that has every file. -/
def hostAll : Host where
  malloc := .above
  file _ := some [0]
  frame _ _ := 0

def kernelName : CStr := ⟨bytes "kernel.bin", by decide⟩
def kernelPath : CStr := ⟨bytes "kernel/kernel.bin", by decide⟩
def prgmName : CStr := ⟨bytes "prgm", by decide⟩
def startName : CStr := ⟨bytes "start", by decide⟩
def startPath : CStr := ⟨bytes "prgm/start/start", by decide⟩
def testName : CStr := ⟨bytes "test", by decide⟩
def testPath : CStr := ⟨bytes "prgm/test/test", by decide⟩

/-- The kernel, and two programs in a directory. -/
def programs : Fsd :=
  .file ⟨kernelName, none, none⟩ kernelPath
    (.dir ⟨prgmName, none, none⟩
      (.file ⟨startName, none, none⟩ startPath (.file ⟨testName, none, none⟩ testPath .done))
      .done)

/-- Its description, in the layout of `default.fsd`. -/
def programsText : List UInt8 :=
  bytes "\nf:[name = kernel.bin, actual = kernel/kernel.bin]\n\nd:[name = prgm, contents = \x7b\n" ++
  bytes "    f:[name = start, actual = prgm/start/start]\n    f:[name = test, actual = prgm/test/test]\n" ++
  bytes "\x7d]\n"

/-- A directive with a name only is clean if the name is. -/
theorem cleanFields_bare {name : CStr} (h : Plain name) : CleanFields ⟨name, none, none⟩ :=
  ⟨h, fun v hv => absurd hv (Option.not_mem_none v), fun v hv => absurd hv (Option.not_mem_none v)⟩

/-- The text of the programs, with a host that has every file. -/
theorem text_builds_programs :
    ∃ k out, parseFsd hostAll k 0x1000 1 0 none programsText (State.fresh.image 2) = some out ∧
      out.errors = [] ∧
      Builder.parseFsd hostAll k 0x1000 1 0 none programs (State.fresh.image 2) = some out.image := by
  have hclean : Clean programs := by
    refine ⟨cleanFields_bare (by decide), by decide, cleanFields_bare (by decide), ⟨cleanFields_bare
      (by decide), by decide, cleanFields_bare (by decide), by decide, trivial⟩, trivial⟩
  have hflat : Flat programs := by
    rw [Flat, show nested programs = [.file ⟨startName, none, none⟩ startPath
      (.file ⟨testName, none, none⟩ testPath .done)] from rfl, List.forall_mem_singleton]
    rfl
  obtain ⟨s', m, ns, ds, es, rem, K, ⟨k, hk⟩, -⟩ := parseFsd_spec hostAll 0 none programs
    (State.fresh.image 2) (by decide) ⟨rfl, ⟨rfl, rfl, trivial⟩, trivial⟩ (by decide) (by decide)
  exact (text_builds_iff hclean (spells_of_check (by decide)) hostAll 0x1000 1 0 none _).mpr
    ⟨hflat, k, Option.isSome_of_eq_some (hk k le_rfl)⟩

/-- A directory in a directory, with an entry in it. -/
def deep : Fsd :=
  .dir ⟨prgmName, none, none⟩ (.dir ⟨testName, none, none⟩
    (.indir ⟨startName, none, none⟩ startPath .done) .done) .done

def deepText : List UInt8 :=
  bytes "d:[name = prgm, contents = \x7bd:[name = test, contents = \x7b" ++
  bytes "i:[name = start, target = prgm/start/start]\x7d]\x7d]"

/-- The text of a tree that the builder has room for, on which it does not return. -/
theorem nested_directory_fails :
    Clean deep ∧ Spells (tokens deep) deepText ∧
      (∃ k, (Builder.parseFsd hostAll k 0x1000 1 0 none deep (State.fresh.image 2)).isSome) ∧
      ∀ k, parseFsd hostAll k 0x1000 1 0 none deepText (State.fresh.image 2) = none := by
  have hclean : Clean deep := ⟨cleanFields_bare (by decide), ⟨cleanFields_bare (by decide),
    ⟨cleanFields_bare (by decide), by decide, trivial⟩, trivial⟩, trivial⟩
  have htext : Spells (tokens deep) deepText := spells_of_check (by decide)
  have hflat : ¬ Flat deep := by
    intro h
    cases h (.dir ⟨testName, none, none⟩ (.indir ⟨startName, none, none⟩ startPath .done) .done)
      (List.mem_singleton_self _)
  refine ⟨hclean, htext, ?_, fun k => parseFsd_never hclean htext hflat hostAll k ..⟩
  obtain ⟨s', m, ns, ds, es, rem, K, ⟨k, hk⟩, -⟩ := parseFsd_spec hostAll 0 none deep
    (State.fresh.image 2) (by decide) ⟨⟨trivial, trivial⟩, trivial⟩ (by decide) (by decide)
  exact ⟨k, Option.isSome_of_eq_some (hk k le_rfl)⟩

end Frosk.Builder.Text
