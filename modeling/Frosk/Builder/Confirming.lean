import Mathlib.Tactic
import Frosk.Builder.Descriptions
import Frosk.Builder.Ending

/-!
# The image builder: confirmed directives

`confirm_directive` says whether an entry was made. A class that misses a field says 0 and
changes nothing; each other call that returns says 1, and there is one more entry in the
directory. But `fconfirm` does not look at what `new_file` returned: without the file of the
host it says 1 too, or stores permission or owner through `NULL`.

* `Meets` — what is expected of one call, which has to return; the directives in its contents
  are confirmed by calls of their own.
* `Makes` — the contents are a text that the parser gets through, and the calls of `fs.c` for
  the entry and for these contents return.
* `confirm_meets_iff` — in every image that a run comes to, for every directive.
-/

namespace Frosk.Builder

open Lib Fs

variable {H : Host} {s s' : Image} {p x : Ptr} {ts : List Ptr} {k : Nat}

/-- A chain has one list of entries. -/
theorem Entries.unique {es es' : List Ptr} (h : Entries s p es) (h' : Entries s p es') : es = es' := by
  induction es generalizing p es' with
  | nil =>
    cases es' with
    | nil => rfl
    | cons y es' =>
      obtain ⟨rfl, hnull, -⟩ := h'
      exact absurd h hnull
  | cons y es ih =>
    obtain ⟨rfl, hnull, hrest⟩ := h
    cases es' with
    | nil => exact absurd h' hnull
    | cons z es' =>
      obtain ⟨rfl, -, hrest'⟩ := h'
      rw [ih hrest hrest']

namespace Text

variable {dir : Directive} {q q' : Parser} {b : Bool}

-- ---------------------------------------------------------------------------
-- What is expected of a call
-- ---------------------------------------------------------------------------

/-- There is one more entry in the directory, which has the name that was given. -/
def Linked (s s' : Image) (dir : Directive) : Prop :=
  ∃ es x name, Entries s (s.common dir.par).data es ∧ x ∉ es ∧
    Entries s' (s'.common dir.par).data (x :: es) ∧ dir.values 0 = some name ∧
    (s'.string (s'.common x).name).value = name

/-- The call returns, so that nothing is stored through `NULL`. It says whether an entry was made,
and where it was not nothing has changed. -/
def Meets (H : Host) (s : Image) (dir : Directive) : Prop :=
  ∀ q : Parser, q.image = s → ∃ b s',
    Settles (fun k => (confirmDirective H k (parseDirectory H k k) dir q).map fun r => (r.1, r.2.image))
        (b, s') ∧
      (b = true ↔ Linked s s' dir) ∧ (b = false → s' = s)

/-- The directives in the contents, which are a text of the grammar. -/
def Contains (dir : Directive) (inner : Items) : Prop :=
  match contents dir.values dir.cls with
  | none => inner = .done
  | some raw => ∃ e, Describes True false raw.chars inner e

/-- Where no field is missing, the contents are a text of the grammar, and the calls of `fs.c` that
make the entry and what is inside return. -/
def Makes (H : Host) (s : Image) (dir : Directive) : Prop :=
  ∀ hverified : Verified dir.cls dir.values, ∃ inner, Contains dir inner ∧
    ∃ s', Settles (fun k => (Items.entry dir.cls dir.values hverified inner .done).build H k dir.par s) s'

/-- An image is not one with a new entry. -/
theorem not_linked_self : ¬ Linked s s dir := by
  rintro ⟨es, x, name, hes, hx, hmore, -⟩
  have hlen := congrArg List.length (hes.unique hmore)
  rw [List.length_cons] at hlen
  omega

/-- The entry, after its contents. -/
theorem entered_linked {ts₁ ts' : List Ptr} {s₁ : Image} (h : Tidy s ts) (hpar : dir.par ∈ ts)
    (htype : (s.node dir.par).type = .DIRECTORY) (hentered : Entered H s s₁ ts ts₁ dir x)
    (hruns : Runs H s₁ s' ts₁ ts' x) : Linked s s' dir := by
  obtain ⟨name, hname, hmade⟩ := hentered.made
  obtain ⟨es, hes, hsub⟩ := h.dirs dir.par hpar htype
  have hpx : dir.par ≠ x := ne_of_mem_of_not_mem hpar hmade.new
  have hall : ∀ y ∈ x :: es, y ∈ ts₁ := by
    intro y hy
    rcases List.mem_cons.mp hy with rfl | hy
    · exact hmade.mem
    · exact hmade.sub y (hsub y hy)
  obtain ⟨datap, hcommonp, hdatap⟩ := hruns.leaves.common dir.par (hmade.sub _ hpar)
  obtain ⟨datax, hcommonx, -⟩ := hruns.leaves.common x hmade.mem
  obtain ⟨hmem, hvalue⟩ := hmade.name name rfl
  refine ⟨es, x, name, hes, fun hx => hmade.new (hsub x hx), ?_, hname, ?_⟩
  · rw [hcommonp, hdatap hpx]
    exact (hmade.entries hpar hes hsub).leaves hall hruns.leaves
  · rw [hcommonx]
    exact (hruns.leaves.string _ hmem).trans hvalue

-- ---------------------------------------------------------------------------
-- What returns
-- ---------------------------------------------------------------------------

/-- With a bound that is large enough for the contents, the call goes on as the calls of `fs.c` do. -/
theorem confirm_tells {inner : Items} (hverified : Verified dir.cls dir.values)
    (hinner : Contains dir inner) :
    ∃ n e, ∀ k, n ≤ k → ∀ q : Parser, Tells (true, ·) (confirmDirective H k (parseDirectory H k k) dir q)
      ((Items.entry dir.cls dir.values hverified inner .done).build H k dir.par q.image) q e := by
  obtain ⟨cls, par, values⟩ := dir
  rw [Contains] at hinner
  split at hinner
  next hnone =>
    refine ⟨0, _, fun k _ q => confirmDirective_tells (e := false) H k _ par inner hverified
      (fun nd q => ?_) q⟩
    rw [inside_none hnone, hinner, Items.build]
    exact tells_some id q
  next raw hraw =>
    obtain ⟨e, hdescribes⟩ := hinner
    refine ⟨raw.chars.length + 1, _, fun k hk q => confirmDirective_tells (e := e) H k _ par inner hverified
      (fun nd q => ?_) q⟩
    rw [inside_some hraw]
    exact parseDirectory_tells H k hdescribes (stands_string raw) hk nd q

/-- Contents that the call got through are a text of the grammar. -/
theorem confirm_contains (hverified : Verified dir.cls dir.values)
    (hconfirm : confirmDirective H k (parseDirectory H k k) dir q = some (b, q')) :
    ∃ inner, Contains dir inner := by
  obtain ⟨cls, par, values⟩ := dir
  obtain ⟨name, make, hmake⟩ := make_verified hverified par H k
  rw [confirmDirective_some hmake] at hconfirm
  obtain ⟨⟨s₁, x⟩, -, hconfirm⟩ := Option.bind_eq_some_iff.mp hconfirm
  obtain ⟨q₁, -, hconfirm⟩ := Option.bind_eq_some_iff.mp hconfirm
  obtain ⟨q₂, hinside, -⟩ := Option.map_eq_some_iff.mp hconfirm
  unfold Contains
  cases hcontents : contents values cls with
  | none => exact ⟨.done, rfl⟩
  | some raw =>
    rw [inside_some hcontents] at hinside
    obtain ⟨inner, e, hdescribes⟩ := parseDirectory_reads (stands_string raw) hinside
    exact ⟨inner, e, hdescribes⟩

/-- The call returned, so the calls of `fs.c` did. -/
theorem makes_of_meets (hmeets : Meets H s dir) : Makes H s dir := by
  intro hverified
  obtain ⟨b, s', ⟨n, hn⟩, -⟩ := hmeets ⟨s, 1, []⟩ rfl
  have hreturned : ∀ k, n ≤ k → ∃ q', confirmDirective H k (parseDirectory H k k) dir ⟨s, 1, []⟩ =
      some (b, q') ∧ q'.image = s' := by
    intro k hk
    obtain ⟨⟨b', q'⟩, hconfirm, heq⟩ := Option.map_eq_some_iff.mp (hn k hk)
    obtain ⟨rfl, rfl⟩ := Prod.mk.inj heq
    exact ⟨q', hconfirm, rfl⟩
  obtain ⟨q', hconfirm, -⟩ := hreturned n le_rfl
  obtain ⟨inner, hinner⟩ := confirm_contains hverified hconfirm
  obtain ⟨m, e, htells⟩ := confirm_tells (H := H) hverified hinner
  refine ⟨inner, hinner, s', max n m, ?_⟩
  intro k hk
  obtain ⟨q', hconfirm, himage⟩ := hreturned k (le_of_max_le_left hk)
  obtain ⟨hnone, hsome⟩ := htells k (le_of_max_le_right hk) ⟨s, 1, []⟩
  cases hbuild : (Items.entry dir.cls dir.values hverified inner .done).build H k dir.par s with
  | none =>
    rw [hnone hbuild] at hconfirm
    cases hconfirm
  | some image =>
    obtain ⟨q₁, hconfirm₁, himage₁, -⟩ := hsome image hbuild
    obtain ⟨-, rfl⟩ := Prod.mk.inj (Option.some.inj (hconfirm₁.symm.trans hconfirm))
    exact hbuild.trans (congrArg some (himage₁.symm.trans himage))

/-- If the file can be read and the calls return, the directive is confirmed as expected. -/
theorem meets_of_readable (h : Tidy s ts) (hpar : dir.par ∈ ts) (htype : (s.node dir.par).type = .DIRECTORY)
    (hread : ¬ Unreadable H dir) (hmakes : Makes H s dir) : Meets H s dir := by
  rintro q rfl
  by_cases hverified : Verified dir.cls dir.values
  · obtain ⟨inner, hinner, s', n, hn⟩ := hmakes hverified
    obtain ⟨m, e, htells⟩ := confirm_tells (H := H) hverified hinner
    have hreturns : ∀ k, max n m ≤ k →
        ∃ q', confirmDirective H k (parseDirectory H k k) dir q = some (true, q') ∧ q'.image = s' := by
      intro k hk
      obtain ⟨q', hconfirm, himage, -⟩ :=
        (htells k (le_of_max_le_right hk) q).2 s' (hn k (le_of_max_le_left hk))
      exact ⟨q', hconfirm, himage⟩
    refine ⟨true, s', ⟨max n m, fun k hk => ?_⟩, iff_of_true rfl ?_, fun hb => Bool.noConfusion hb⟩
    · obtain ⟨q', hconfirm, rfl⟩ := hreturns k hk
      exact congrArg (Option.map _) hconfirm
    · obtain ⟨q', hconfirm, rfl⟩ := hreturns _ le_rfl
      rcases confirm_cases h hconfirm with ⟨hb, -⟩ | ⟨-, q₁, x, hinside, -, hcase⟩
      · cases hb
      · rcases hcase with ⟨hun, -⟩ | ⟨-, ts₁, hentered⟩
        · exact absurd hun hread
        · obtain ⟨name, -, hmade⟩ := hentered.made
          obtain ⟨ts', hruns⟩ := inside_runs (parseDirectory_runs H _ _) hentered.tidy hmade.mem hinside
          exact entered_linked h hpar htype hentered hruns
  · -- a class that misses a field
    refine ⟨false, q.image, settles_of_eq fun k => ?_, iff_of_false Bool.false_ne_true not_linked_self,
      fun _ => rfl⟩
    rw [confirmDirective_none (make_unverified hverified dir.par H k)]
    rfl

/-- Without the file of the host nothing is made, and no call says so. -/
theorem not_meets_of_unreadable (h : Tidy s ts) (hread : Unreadable H dir) : ¬ Meets H s dir := by
  intro hmeets
  obtain ⟨b, s', ⟨n, hn⟩, htrue, -⟩ := hmeets ⟨s, 1, []⟩ rfl
  obtain ⟨⟨b', q'⟩, hconfirm, heq⟩ := Option.map_eq_some_iff.mp (hn n le_rfl)
  obtain ⟨rfl, rfl⟩ := Prod.mk.inj heq
  obtain ⟨hcls, hname, actual, hactual, -⟩ := id hread
  rcases confirm_cases (q := ⟨s, 1, []⟩) h hconfirm with ⟨-, -, hmake⟩ | ⟨rfl, q₁, x, hinside, -, hcase⟩
  · obtain ⟨name, hname⟩ := Option.ne_none_iff_exists'.mp hname
    rw [Directive.make, hcls, hname, hactual] at hmake
    cases hmake
  · rcases hcase with ⟨-, himage⟩ | ⟨hnot, -⟩
    · rw [Directive.inside, hcls] at hinside
      obtain rfl := Option.some.inj hinside
      have hlinked := htrue.mp rfl
      rw [himage] at hlinked
      exact not_linked_self hlinked
    · exact hnot hread

/-- **Confirmed directives.** In every image that a run comes to, for every directive in a
directory of it: what is expected of `confirm_directive` holds if and only if the directive is not
of the class `f`, with its name and its file set, where the host has no such file, and the contents
are a text that the parser gets through, and the calls of `fs.c` for it return. -/
theorem confirm_meets_iff {bs sb rperm : Nat} {rowner : Option CStr} {s₀ : Image} {dirs : List Directive}
    (hrun : Described H bs sb rperm rowner s₀ dirs s) (hpar : dir.par ∈ s.nodes)
    (htype : (s.node dir.par).type = .DIRECTORY) :
    Meets H s dir ↔ ¬ Unreadable H dir ∧ Makes H s dir := by
  obtain ⟨k, s₁, root, hstart, htrace⟩ := hrun
  obtain ⟨ts₁, htidy₁, -⟩ := startFsd_tidy hstart
  obtain ⟨ts, htidy, -⟩ := trace_tidy htidy₁ htrace
  have hgiven : dir.par ∈ ts := htidy.sound.given hpar (by rw [htype]; decide) (by rw [htype]; decide)
  exact ⟨fun hmeets => ⟨fun hun => not_meets_of_unreadable htidy hun hmeets, makes_of_meets hmeets⟩,
    fun ⟨hread, hmakes⟩ => meets_of_readable htidy hgiven htype hread hmakes⟩

/-- In an image whose first metadata block has room, the calls of `fs.c` return if the strings are
short. -/
theorem makes_of_room {B : BlockSize} {m : Ptr} {ns ks : List Ptr} {rem : Nat} {K : Finset CStr}
    {inner : Items} (h : Holds B s m ns ks rem K) (hpar : dir.par ∈ ns)
    (htype : (s.node dir.par).type = .DIRECTORY) (hverified : Verified dir.cls dir.values)
    (hinner : Contains dir inner)
    (hread : (Items.entry dir.cls dir.values hverified inner .done).Readable H)
    (hroom : (Items.entry dir.cls dir.values hverified inner .done).room B +
      B.need (Items.entry dir.cls dir.values hverified inner .done).strings K ≤ rem)
    (hshort : Short (Items.entry dir.cls dir.values hverified inner .done).strings) : Makes H s dir := by
  have hinside : dir.cls = .d ∧ inner.Builds B H m ∨ inner = .done := by
    cases hcontents : contents dir.values dir.cls with
    | none =>
      simp only [Contains, hcontents] at hinner
      exact .inr hinner
    | some raw =>
      simp only [Contains, hcontents] at hinner
      obtain ⟨e, hdescribes⟩ := hinner
      exact .inl ⟨(contents_some hcontents).1, describes_builds hdescribes hread.2.1⟩
  have hdone : Items.done.Builds B H m := fun s d ns ks rem K h _ _ _ => done_returns h H d
  have hreturns := entry_builds hverified hread.1 hinside hdone s dir.par ns ks rem K h hpar htype hroom
  obtain ⟨s', honly, -⟩ := hreturns.returns hshort
  exact fun _ => ⟨inner, hinner, s', honly.settles⟩

/-- The fields of the kernel, as a file. -/
def kernelValues : Values := fun i =>
  if i = 0 then some kernelName else if i = 1 then some kernelPath else none

/-- The fields that `f` needs. -/
theorem kernelValues_verified : Verified .f kernelValues := by
  intro i hi
  rcases List.mem_pair.mp hi with rfl | rfl
  · exact Option.some_ne_none kernelName
  · exact Option.some_ne_none kernelPath

/-- The kernel, as a file of the directory `par`. -/
def kernelFile (par : Ptr) : Directive := ⟨.f, par, kernelValues⟩

/-- The kernel, in an empty root directory, with a host that has every file. -/
theorem confirm_meets_kernel :
    ∃ root s, Described hostAll 0x1000 1 0 none (State.fresh.image 2) [] s ∧
      Meets hostAll s (kernelFile root) := by
  have hstart := startFsd_returns hostAll .default 1 0 none (State.fresh.image 2) (by decide)
  obtain ⟨⟨s, root⟩, ⟨⟨k, hk⟩, -⟩, m, ns, ks, rem, hheld, hroot, htype, hrem⟩ := hstart.returns (by decide)
  have hrun : Described hostAll 0x1000 1 0 none (State.fresh.image 2) [] s :=
    ⟨k, s, root, hk k le_rfl, .nil s⟩
  have hfits : (Items.entry .f kernelValues kernelValues_verified .done .done).room .default +
      BlockSize.need .default (Items.entry .f kernelValues kernelValues_verified .done .done).strings ∅ +
      (BlockSize.node .default sizeofCommon + BlockSize.need .default ∅ ∅) ≤ BlockSize.room .default := by
    decide
  have hshort : Short (Items.entry .f kernelValues kernelValues_verified .done .done).strings := by decide
  obtain ⟨f, hbump⟩ := hheld.bump
  refine ⟨root, s, hrun, (confirm_meets_iff hrun ?_ htype).mpr ⟨?_, ?_⟩⟩
  · exact (hbump.mem_iff root).mp (List.mem_append_left _ hroot)
  · rintro ⟨-, -, actual, -, hnone⟩
    cases hnone
  · refine makes_of_room hheld hroot htype kernelValues_verified rfl
      ⟨fun _ _ _ => rfl, trivial, trivial⟩ ?_ hshort
    simp only [Option.toFinset_none] at hrem ⊢
    show (Items.entry .f kernelValues kernelValues_verified .done .done).room .default +
      BlockSize.need .default (Items.entry .f kernelValues kernelValues_verified .done .done).strings ∅ ≤ rem
    omega

/-- A host without files. -/
def hostBare : Host where
  malloc := .above
  file _ := none
  frame _ _ := 0

/-- The first call of `confirm_directive` returns 1, and nothing has changed. -/
theorem unreadable_confirmed :
    ∃ root s, startFsd hostBare 9 0x1000 1 0 none (State.fresh.image 2) = some (s, root) ∧
      confirmDirective hostBare 9 (parseDirectory hostBare 9 1) (kernelFile root) ⟨s, 1, []⟩ =
        some (true, ⟨s, 1, []⟩) ∧
      ¬ Linked s s (kernelFile root) ∧ ¬ Meets hostBare s (kernelFile root) := by
  have hruns : (startFsd hostBare 9 0x1000 1 0 none (State.fresh.image 2)).isSome = true := by decide +kernel
  obtain ⟨⟨s, root⟩, hstart⟩ := Option.isSome_iff_exists.mp hruns
  obtain ⟨ts, htidy, -⟩ := startFsd_tidy hstart
  exact ⟨root, s, hstart, rfl, not_linked_self,
    not_meets_of_unreadable htidy ⟨rfl, Option.some_ne_none _, kernelPath, rfl, rfl⟩⟩

end Text

end Frosk.Builder
