import Mathlib.Tactic
import Frosk.Builder.Unambiguous
import Frosk.Builder.Returning
import Frosk.Builder.Descriptions
import Frosk.Builder.Room

/-!
# The image builder: which descriptions are parsed

`parse_fsd` does not return on every text. It reads on forever where the text ends inside of a
comment, a word or a directive, it reads through `NULL` at a letter that no class has, and it
stops at a string that is too long for `get_string`; in the contents of a directory it loses
some bytes without a report.

* `Items.Builds` — the calls for the directives of a text return exactly if its strings are short.
* `parser_returns_iff` — with them, for every text, from a file or from a string.
-/

namespace Frosk.Builder.Text

open Lib Fs

variable {H : Host} {b : BlockSize} {s : Image} {m d x : Ptr} {ns ks : List Ptr} {rem k : Nat}
  {K : Finset CStr}
  {cls : Class} {values : Values} {items : Items}

-- ---------------------------------------------------------------------------
-- What the directives take
-- ---------------------------------------------------------------------------

/-- The string that an indirect entry has for its target. -/
def target (values : Values) : Class → Option CStr
  | .i => values 1
  | _ => none

/-- The strings of an entry without its owner. -/
def named (cls : Class) (values : Values) : Finset CStr := (values 0).toFinset ∪ (target values cls).toFinset

/-- The bytes of the nodes of an entry, without its strings. -/
def Class.room (b : BlockSize) : Class → Nat
  | .f => b.node sizeofCommon + b.node sizeofBlock
  | .d => b.node sizeofCommon
  | .i => b.node sizeofCommon
  | .v => b.node sizeofCommon + b.node sizeofBlock

def Class.nodeType : Class → FnodeType
  | .f => .FILE
  | .d => .DIRECTORY
  | .i => .INDIRECT
  | .v => .FILE

namespace Items

def strings : Items → Finset CStr
  | .done => ∅
  | .entry cls values _ inner rest => named cls values ∪ (values 3).toFinset ∪ inner.strings ∪ rest.strings

def room (b : BlockSize) : Items → Nat
  | .done => 0
  | .entry cls _ _ inner rest => cls.room b + inner.room b + rest.room b

/-- The host has the files that are named. -/
def Readable (H : Host) : Items → Prop
  | .done => True
  | .entry cls values _ inner rest =>
    (cls = .f → ∀ actual ∈ values 1, (H.file actual).isSome) ∧ inner.Readable H ∧ rest.Readable H

end Items

-- ---------------------------------------------------------------------------
-- One directive
-- ---------------------------------------------------------------------------

/-- The entry that a directive makes. -/
def Directive.create (dir : Directive) (H : Host) (k : Nat) (s : Image) : Option (Image × Ptr) :=
  (dir.make H k).bind fun r => r.2 s

/-- An entry is made by the calls of its confirm function, then come its contents, then the rest. -/
theorem build_entry {name : CStr} (hname : values 0 = some name) (hverified : Verified cls values)
    (inner rest : Items)
    (k : Nat) (d : Ptr) (s : Image) : (Items.entry cls values hverified inner rest).build H k d s =
      ((Directive.mk cls d values).create H k s).bind fun r =>
        (Builder.confirmCommon H k ⟨name, values 2, values 3⟩ r.2 r.1).bind fun s =>
          (inner.build H k r.2 s).bind fun s => rest.build H k d s := by
  obtain ⟨name', make, hmake⟩ := make_verified hverified d H k
  obtain rfl : name' = name := Option.some.inj ((make_name hmake).symm.trans hname)
  simp only [Items.build, Directive.create, hmake, Option.bind_eq_bind, Option.bind_some]

/-- The name is the only string of an entry that is not indirect. -/
theorem named_of_ne {name : CStr} (hname : values 0 = some name) (hcls : cls ≠ .i) :
    named cls values = {name} := by
  have htarget : target values cls = none := by
    cases cls with
    | i => exact absurd rfl hcls
    | f => rfl
    | d => rfl
    | v => rfl
  rw [named, hname, htarget, Option.toFinset_some, Option.toFinset_none, Finset.union_empty]

/-- The entry of a directive that is verified is made exactly if its strings are short. -/
theorem create_returns (h : Holds b s m ns ks rem K) (hd : d ∈ ns) (htype : (s.node d).type = .DIRECTORY)
    (hverified : Verified cls values) (hread : cls = .f → ∀ actual ∈ values 1, (H.file actual).isSome)
    (hroom : cls.room b + b.need (named cls values) K ≤ rem) :
    ReturnsIff (fun k => (Directive.mk cls d values).create H k s) (Short (named cls values))
      (Begun b s m ns ks rem (cls.room b) K (named cls values) cls.nodeType) := by
  have hneeds : ∀ i ∈ cls.needs, ∃ v, values i = some v := fun i hi =>
    Option.ne_none_iff_exists'.mp (hverified i hi)
  have hdir : d ≠ NULL → d ∈ ns ∧ (s.node d).type = .DIRECTORY := fun _ => ⟨hd, htype⟩
  cases cls with
  | f =>
    obtain ⟨name, hname⟩ := hneeds 0 (by decide)
    obtain ⟨actual, hactual⟩ := hneeds 1 (by decide)
    obtain ⟨bytes, hfile⟩ := Option.isSome_iff_exists.mp (hread rfl actual hactual)
    rw [named_of_ne hname (by decide)] at hroom ⊢
    simp only [Directive.create, Directive.make, hname, hactual, Option.bind_some]
    exact newFile_returns h name hfile hdir hroom
  | d =>
    obtain ⟨name, hname⟩ := hneeds 0 (by decide)
    rw [named_of_ne hname (by decide)] at hroom ⊢
    simp only [Directive.create, Directive.make, hname, Option.bind_some]
    exact newDir_returns h H (some name) hdir hroom
  | i =>
    obtain ⟨name, hname⟩ := hneeds 0 (by decide)
    obtain ⟨link, hlink⟩ := hneeds 1 (by decide)
    have hnamed : named .i values = {name} ∪ {link} := by
      rw [named, target, hname, hlink, Option.toFinset_some, Option.toFinset_some]
    rw [hnamed] at hroom ⊢
    simp only [Directive.create, Directive.make, hname, hlink, Option.bind_some]
    exact newIndir_returns h H name link hdir hroom
  | v =>
    obtain ⟨name, hname⟩ := hneeds 0 (by decide)
    obtain ⟨offset, hoffset⟩ := hneeds 1 (by decide)
    obtain ⟨size, hsize⟩ := hneeds 4 (by decide)
    rw [named_of_ne hname (by decide)] at hroom ⊢
    simp only [Directive.create, Directive.make, hname, hoffset, hsize, Option.bind_some]
    exact newVirt_returns h H name _ _ hdir hroom

-- ---------------------------------------------------------------------------
-- All of them
-- ---------------------------------------------------------------------------

/-- In a directory of an image that has room for the directives, the calls for them return exactly
if their strings are short. -/
def Items.Builds (b : BlockSize) (H : Host) (m : Ptr) (items : Items) : Prop :=
  ∀ s d ns ks rem K, Holds b s m ns ks rem K → d ∈ ns → (s.node d).type = .DIRECTORY →
    items.room b + b.need items.strings K ≤ rem →
    ReturnsIff (fun k => items.build H k d s) (Short items.strings)
      (Extended b s m ns ks rem (items.room b) K items.strings)

/-- An empty list builds nothing and returns. -/
theorem done_returns (h : Holds b s m ns ks rem K) (H : Host) (d : Ptr) :
    ReturnsIff (fun k => Items.done.build H k d s) (Short Items.done.strings)
      (Extended b s m ns ks rem (Items.done.room b) K Items.done.strings) := by
  have hdone : Extended b s m ns ks rem 0 K ∅ s := ⟨ns, ks, rem, .refl h⟩
  exact (returnsIff_some hdone).congr ⟨fun _ => trivial, fun _ => short_empty⟩

/-- A directive, what is in its contents, and the others. -/
theorem entry_builds {inner rest : Items} (hverified : Verified cls values)
    (hread : cls = .f → ∀ actual ∈ values 1, (H.file actual).isSome)
    (hinner : cls = .d ∧ inner.Builds b H m ∨ inner = .done) (hrest : rest.Builds b H m) :
    (Items.entry cls values hverified inner rest).Builds b H m := by
  intro s d ns ks rem K h hd htype hroom
  obtain ⟨name, hname⟩ := Option.ne_none_iff_exists'.mp (hverified 0 (by cases cls <;> decide))
  simp only [Items.strings, Items.room, b.need_union] at hroom ⊢
  simp only [build_entry hname]
  have hcond : Short (named cls values ∪ (values 3).toFinset ∪ inner.strings ∪ rest.strings) ↔
      Short (named cls values) ∧ Short (values 3).toFinset ∧ Short inner.strings ∧ Short rest.strings := by
    simp only [short_union, and_assoc]
  refine ReturnsIff.congr ?_ hcond
  refine (create_returns h hd htype hverified hread (by omega)).bind ?_
  rintro ⟨s₁, x⟩ ⟨ns₁, ks₁, rem₁, hext₁, hx, hnode⟩
  have hroom₁ := hext₁.room
  have hnull : x ≠ NULL := ne_of_mem_of_not_mem hx hext₁.holds.null
  refine (confirmCommon_returns hext₁.holds H hnull ⟨name, values 2, values 3⟩ (by dsimp only; omega)).bind ?_
  rintro s₂ ⟨ns₂, ks₂, rem₂, hext₂⟩
  have hall₂ := hext₁.trans hext₂
  have hroom₂ := hall₂.room
  dsimp only at hroom₂
  rw [b.need_union] at hroom₂
  have hinside : ReturnsIff (fun k => inner.build H k x s₂) (Short inner.strings)
      (Extended b s₂ m ns₂ ks₂ rem₂ (inner.room b) (K ∪ (named cls values ∪ (values 3).toFinset))
        inner.strings) := by
    rcases hinner with ⟨rfl, hinner⟩ | rfl
    · exact hinner s₂ x ns₂ ks₂ rem₂ _ hall₂.holds (hext₂.sub x hx) ((hext₂.type x hx).trans hnode) (by omega)
    · exact done_returns hall₂.holds H x
  refine hinside.bind ?_
  rintro s₃ ⟨ns₃, ks₃, rem₃, hext₃⟩
  have hall₃ := hall₂.trans hext₃
  have hroom₃ := hall₃.room
  simp only [b.need_union] at hroom₃
  refine (hrest s₃ d ns₃ ks₃ rem₃ _ hall₃.holds (hall₃.sub d hd) ((hall₃.type d hd).trans htype) ?_).mono ?_
  · dsimp only
    omega
  · rintro s₄ ⟨ns₄, ks₄, rem₄, hext₄⟩
    exact ⟨ns₄, ks₄, rem₄, hall₃.trans hext₄⟩

/-- The calls for the directives of a text, by induction on it. -/
theorem describes_builds {lax : Prop} {file e : Bool} {t : List UInt8}
    (hdescribes : Describes lax file t items e)
    (hread : items.Readable H) : items.Builds b H m := by
  induction hdescribes with
  | stop _ _ => exact fun s d ns ks rem K h _ _ _ => done_returns h H d
  | unverified _ _ _ _ ih => exact ih hread
  | plain _ hverified _ _ _ ih => exact entry_builds hverified hread.1 (.inr rfl) (ih hread.2.2)
  | directory _ hverified _ hcontents _ _ ihinner ihrest =>
    exact entry_builds hverified hread.1 (.inl ⟨(contents_some hcontents).1, ihinner hread.2.1⟩)
      (ihrest hread.2.2)

-- ---------------------------------------------------------------------------
-- parse_fsd
-- ---------------------------------------------------------------------------

/-- The root directory, in an image with nothing else. -/
def Rooted (b : BlockSize) (rowner : Option CStr) (r : Image × Ptr) : Prop :=
  ∃ m ns ks rem, Holds b r.1 m ns ks rem rowner.toFinset ∧ r.2 ∈ ns ∧ (r.1.node r.2).type = .DIRECTORY ∧
    rem + (b.node sizeofCommon + b.need rowner.toFinset ∅) = b.room

/-- The root directory is made exactly if its owner is short. -/
theorem startFsd_returns (H : Host) (b : BlockSize) (sb rperm : Nat) (rowner : Option CStr) (s : Image)
    (hroom : b.node sizeofCommon + b.need rowner.toFinset ∅ ≤ b.room) :
    ReturnsIff (fun k => startFsd H k b.val sb rperm rowner s) (Short rowner.toFinset) (Rooted b rowner) := by
  obtain ⟨m, fr, hmeta, hbump, -, -⟩ := start_bump H.toEnv b sb s.node s.metaAt
  let s₀ : Image := { s with
    toState := State.start H.toEnv b sb s.node s.metaAt, firstMeta := m, freeData := NULL, strtbl := NULL }
  have hstart : newMeta H.toEnv NULL { s with
      nodes := [], metas := [], blockSize := b.val, nextLba := sb, freeMeta := NULL }.toState =
      some (State.start H.toEnv b sb s.node s.metaAt, m) := hmeta
  have hcall : ∀ k, startFsd H k b.val sb rperm rowner s = (newDir H k none NULL s₀).bind fun r =>
      (getString H k rowner
        ({ r.1 with root := r.2 }.setCommon r.2 fun v => { v with perm := rperm % 0x10000 })).map fun o =>
          (o.1.setCommon r.2 fun v => { v with owner := o.2 }, r.2) := by
    intro k
    simp only [startFsd]
    rw [hstart]
    simp only [Option.bind_eq_bind, Option.bind_some, Option.map_eq_bind]
    rfl
  have hempty : Holds b s₀ m [] [] b.room ∅ :=
    ⟨⟨_, hbump⟩, fun n hn => absurd hn List.not_mem_nil, ⟨_, _, table_nil rfl⟩, short_empty⟩
  have hdir := newDir_returns hempty H none (fun hz => absurd rfl hz)
    (show b.node sizeofCommon + b.need ∅ ∅ ≤ b.room by rw [b.need_empty]; omega)
  simp only [hcall]
  refine ReturnsIff.congr (c := Short ∅ ∧ Short rowner.toFinset) (hdir.bind ?_)
    ⟨fun h => ⟨short_empty, h⟩, fun h => h.2⟩
  rintro ⟨s₁, x⟩ ⟨ns₁, ks₁, rem₁, hext₁, hx, htype⟩
  have hroom₁ := hext₁.room
  rw [Option.toFinset_none, b.need_empty] at hroom₁
  let s₂ : Image := { s₁ with root := x }.setCommon x fun v => { v with perm := rperm % 0x10000 }
  have hext₂ : Extends b s₀ s₂ m [] ns₁ [] ks₁ b.room rem₁ (b.node sizeofCommon) ∅ ∅ :=
    hext₁.store rfl rfl rfl
  have hheld : Holds b s₂ m ns₁ ks₁ rem₁ ∅ := hext₂.holds
  refine (getString_returns hheld H rowner (by omega)).map _ ?_
  rintro ⟨s₃, p⟩ ⟨ns₃, ks₃, rem₃, hext₃⟩
  have hroom₃ := hext₃.room
  have hholds := hext₃.holds
  rw [Finset.empty_union] at hholds
  exact ⟨m, ns₃, ks₃, rem₃, hholds.store rfl rfl rfl, hext₃.sub x hx, (hext₃.type x hx).trans htype, by omega⟩

/-- What a description is read from. -/
inductive Input where
  | file (text : List UInt8)
  | contents (str : CStr)

def Input.source : Input → Source
  | .file text => sourceFile text
  | .contents str => sourceString str

def Input.isFile : Input → Bool
  | .file _ => true
  | .contents _ => false

def Input.text : Input → List UInt8
  | .file text => text
  | .contents str => str.chars

/-- The source begins at its text. -/
theorem Input.stands (input : Input) : input.source.Stands input.text := by
  cases input with
  | file text => exact stands_file text
  | contents str => exact stands_string str

theorem Input.source_file (input : Input) : input.source.file = input.isFile := by
  cases input <;> rfl

/-- `parse_fsd`, on a source of either kind. -/
def parseFsdInput (H : Host) (k bs sb rperm : Nat) (rowner : Option CStr) (input : Input)
    (s : Image) : Option Parser :=
  (startFsd H k bs sb rperm rowner s).bind fun r =>
    parseDirectory H k (input.text.length + 1) input.source r.2 ⟨r.1, 1, []⟩

theorem parseFsdInput_file (H : Host) (k bs sb rperm : Nat) (rowner : Option CStr)
    (text : List UInt8) (s : Image) :
    parseFsdInput H k bs sb rperm rowner (.file text) s = parseFsd H k bs sb rperm rowner text s :=
  (parseFsd_start H k bs sb rperm rowner text s).symm

/-- The files that are named are there, and the first metadata block has room. -/
def Provided (H : Host) (b : BlockSize) (rowner : Option CStr) (items : Items) : Prop :=
  items.Readable H ∧
    b.node sizeofCommon + items.room b + b.need (rowner.toFinset ∪ items.strings) ∅ ≤ b.room

/-- The calls for the directives, without the text. -/
def Items.image (H : Host) (k bs sb rperm : Nat) (rowner : Option CStr) (items : Items)
    (s : Image) : Option Image :=
  (startFsd H k bs sb rperm rowner s).bind fun r => items.build H k r.2 r.1

/-- The image of a description is made exactly if no string of it is too long, as long as there is
room. -/
theorem image_returns {rowner : Option CStr} {input : Input} {e : Bool}
    (hdescribes : Describes True input.isFile input.text items e)
    (hprovided : Provided H b rowner items) (sb rperm : Nat)
    (s : Image) : ReturnsIff (fun k => items.image H k b.val sb rperm rowner s)
      (Short (rowner.toFinset ∪ items.strings)) fun _ => True := by
  obtain ⟨hread, hroom⟩ := hprovided
  rw [b.need_union, Finset.empty_union] at hroom
  refine ((startFsd_returns H b sb rperm rowner s (by omega)).bind ?_).congr short_union
  rintro ⟨s₁, x⟩ ⟨m, ns, ks, rem, hheld, hx, htype, hrem⟩
  exact (describes_builds hdescribes hread s₁ x ns ks rem _ hheld hx htype (by omega)).mono fun _ _ => trivial

/-- `parse_fsd` makes the image of the directives, and reports something if the grammar says so. -/
theorem parseFsdInput_tells {input : Input} {e : Bool}
    (hdescribes : Describes True input.isFile input.text items e) (H : Host) (k bs sb rperm : Nat)
    (rowner : Option CStr) (s : Image) :
    (items.image H k bs sb rperm rowner s = none → parseFsdInput H k bs sb rperm rowner input s = none) ∧
      ∀ image, items.image H k bs sb rperm rowner s = some image →
        ∃ out, parseFsdInput H k bs sb rperm rowner input s = some out ∧ out.image = image ∧
          (out.errors ≠ [] ↔ e = true) := by
  rw [Items.image, parseFsdInput]
  cases startFsd H k bs sb rperm rowner s with
  | none => exact ⟨fun _ => rfl, fun image h => absurd h.symm (Option.some_ne_none image)⟩
  | some r =>
    rw [← input.source_file] at hdescribes
    obtain ⟨hnone, hsome⟩ := parseDirectory_tells H k hdescribes input.stands (Nat.lt_succ_self _) r.2
      ⟨r.1, 1, []⟩
    refine ⟨hnone, ?_⟩
    intro image himage
    obtain ⟨out, hout, hsame, l, hl, he⟩ := hsome image himage
    refine ⟨out, hout, hsame, ?_⟩
    rw [he, hl]
    rfl

/-- A parse that returns has read a text that describes something. -/
theorem parseFsdInput_reads {bs sb rperm : Nat} {rowner : Option CStr} {input : Input} {out : Parser}
    (hparse : parseFsdInput H k bs sb rperm rowner input s = some out) :
    ∃ items e, Describes True input.isFile input.text items e := by
  obtain ⟨r, -, hparse⟩ := Option.bind_eq_some_iff.mp hparse
  rw [← input.source_file]
  exact parseDirectory_reads input.stands hparse

/-- **The parser returns.** For every text, from a file or from a string, whose directives fit:
`parse_fsd` returns, and has reported something if the text is not well formed, exactly if the
text is a sequence of directives, its strings are short, and nothing of it is lost without a
report. -/
theorem parser_returns_iff (H : Host) (b : BlockSize) (sb rperm : Nat) (rowner : Option CStr) (input : Input)
    (s : Image)
    (hprovided : ∀ items e, Describes True input.isFile input.text items e → Provided H b rowner items) :
    (∃ k out, parseFsdInput H k b.val sb rperm rowner input s = some out ∧
      (¬ WellFormed input.isFile input.text → out.errors ≠ [])) ↔
    ∃ items e, Describes True input.isFile input.text items e ∧ Short (rowner.toFinset ∪ items.strings) ∧
      (e = true ∨ WellFormed input.isFile input.text) := by
  constructor
  · rintro ⟨k, out, hparse, hreport⟩
    obtain ⟨items, e, hdescribes⟩ := parseFsdInput_reads hparse
    obtain ⟨hnone, hsome⟩ := parseFsdInput_tells hdescribes H k b.val sb rperm rowner s
    have himage : ∃ image, items.image H k b.val sb rperm rowner s = some image := by
      by_contra hno
      rw [hnone (Option.eq_none_iff_forall_ne_some.mpr (not_exists.mp hno))] at hparse
      cases hparse
    obtain ⟨image, himage⟩ := himage
    refine ⟨items, e, hdescribes, ?_, ?_⟩
    · by_contra hlong
      rw [(image_returns hdescribes (hprovided items e hdescribes) sb rperm s).never hlong k] at himage
      cases himage
    · obtain ⟨out', hout, -, herrors⟩ := hsome image himage
      obtain rfl := Option.some.inj (hout.symm.trans hparse)
      by_cases hwell : WellFormed input.isFile input.text
      · exact .inr hwell
      · exact .inl (herrors.mp (hreport hwell))
  · rintro ⟨items, e, hdescribes, hshort, hreport⟩
    obtain ⟨image, ⟨⟨k, hk⟩, -⟩, -⟩ :=
      (image_returns hdescribes (hprovided items e hdescribes) sb rperm s).returns hshort
    obtain ⟨out, hout, -, herrors⟩ :=
      (parseFsdInput_tells hdescribes H k b.val sb rperm rowner s).2 image (hk k le_rfl)
    refine ⟨k, out, hout, fun hnot => herrors.mpr (hreport.resolve_right hnot)⟩

/-- A directory without entries, on which the parser does not stop at an error. -/
theorem parser_returns_prgm :
    ∃ k out, parseFsdInput hostAll k 0x1000 1 0 none (.file (directoryText prgmName)) (State.fresh.image 2) =
        some out ∧
      (¬ WellFormed true (directoryText prgmName) → out.errors ≠ []) := by
  have hplain : Plain prgmName := by decide
  have hprovided : ∀ items e, Describes True true (directoryText prgmName) items e →
      Provided hostAll .default none items := by
    intro items e h
    obtain ⟨rfl, -⟩ := h.unique (directory_describes True hplain)
    exact ⟨⟨by decide, trivial, trivial⟩, by decide⟩
  exact (parser_returns_iff hostAll .default 1 0 none (.file (directoryText prgmName)) (State.fresh.image 2)
    hprovided).mpr
    ⟨directoryItems prgmName, false, directory_describes True hplain, by decide,
      .inr ⟨directoryItems prgmName, false, directory_describes False hplain⟩⟩

/-- A text that is only the start of a comment: behind it there is nothing, and the loop of `nextc`
does not leave after any number of rounds. -/
theorem unclosed_comment_fails :
    (∀ items e, Describes True true ['#'.toUInt8] items e → Provided hostAll .default none items) ∧
      (∀ k, parseFsd hostAll k 0x1000 1 0 none ['#'.toUInt8] (State.fresh.image 2) = none) ∧
      ∀ m, iterate commentBody m (sourceFile []) = none := by
  refine ⟨fun items e h => absurd h hash_not_described, fun k => ?_, fun m => ?_⟩
  · rw [← parseFsdInput_file, Option.eq_none_iff_forall_ne_some]
    intro out hout
    obtain ⟨items, e, h⟩ := parseFsdInput_reads hout
    exact hash_not_described h
  · rw [Option.eq_none_iff_forall_ne_some]
    intro src hloop
    obtain ⟨l, t, -, hnil, -⟩ := comment_reads (stands_file []) hloop
    exact List.append_ne_nil_of_right_ne_nil l (List.cons_ne_nil _ t) hnil.symm

end Frosk.Builder.Text
