import Mathlib.Tactic
import Frosk.Builder.Runs
import Frosk.Builder.Descriptions

/-!
# The image builder: virtual entries

An entry of class `v` has a block node without a file name, and `write_node` opens the file of
every block node it comes to. It comes to every node (`Reached`), so no image that has such an
entry is ever written.

* `Reached.doomed` — what goes wrong at a node goes wrong from the first node of the image on.
* `virtual_never_written` — over every run of directives with one of class `v` in it.
-/

namespace Frosk.Builder

open Lib Fs

variable {H : Host} {s s' : Image} {n p m : Ptr} {free br ts : List Ptr}

-- ---------------------------------------------------------------------------
-- write_node
-- ---------------------------------------------------------------------------

/-- `write_node` does not return from the node `p`. -/
def Doomed (H : Host) (s : Image) (p : Ptr) : Prop := ∀ k f, writeNode H s k p f = none

/-- `write_fs` stops at a block without a file. -/
theorem doomed_block (hn : n ≠ NULL) (htype : (s.node n).type = .BLOCK)
    (hfile : (s.block n).filename = none) : Doomed H s n := by
  intro k f
  cases k with
  | zero => rfl
  | succ k =>
    have hdata : writeData H s n f = none := by
      rw [writeData, hfile]
      rfl
    rw [writeNode, if_neg hn, htype]
    simp only [hdata]
    exact ite_self _

theorem doomed_next (hp : p ≠ NULL) (h : Doomed H s (s.node p).next) : Doomed H s p := by
  intro k f
  cases k with
  | zero => rfl
  | succ k =>
    rw [writeNode, if_neg hp]
    split
    · rfl
    · exact Option.bind_eq_none_iff.mpr fun g _ => h k _

/-- It stops at a branch above such a block too. -/
theorem doomed_sub (hp : p ≠ NULL) (htype : (s.node p).type = .BRANCH)
    (h : Doomed H s (s.metaAt (s.node p).freeNext).first) : Doomed H s p := by
  intro k f
  cases k with
  | zero => rfl
  | succ k =>
    rw [writeNode, if_neg hp, htype]
    simp only [h k f, ite_self]
    exact ite_self _

/-- So it stops at the first node of every block on the way there. -/
theorem Reached.doomed (hw : Wired s.toState m free br ts) (h : Reached s.toState br m n)
    (hn : Doomed H s n) : Doomed H s (s.metaAt m).first := by
  induction h with
  | first hprev hloc hfirst => exact hfirst ▸ hn
  | @sub p n hp h hprev hloc hfirst ih =>
    have hnull : p ≠ NULL := ne_of_mem_of_not_mem (hw.branch_mem p hp) hw.null
    exact ih (doomed_sub hnull (hw.branch p hp).1 (hfirst ▸ hn))
  | @next p n hp h hprev hnext ih =>
    exact ih (doomed_next (ne_of_mem_of_not_mem hp hw.null) (hnext ▸ hn))

/-- The image has a block node without a file: it is not written. -/
theorem writeFs_none (h : Sound s ts) (hvirtual : Text.Virtual s ts) (k : Nat) (f : Stream) :
    writeFs H s k f = none := by
  obtain ⟨free, br, hw⟩ := h.wired
  obtain ⟨bl, hbl, htype, hfile⟩ := hvirtual
  have hmem : bl ∈ s.nodes := (hw.parts bl).mpr (.inr (.inr hbl))
  have hdoomed : Doomed H s bl := doomed_block (ne_of_mem_of_not_mem hmem hw.null) htype hfile
  rw [writeFs, if_neg hw.root.1, (hw.reach bl hmem).doomed hw hdoomed]
  rfl

namespace Text

variable {dir : Directive} {dirs : List Directive}

-- ---------------------------------------------------------------------------
-- Runs
-- ---------------------------------------------------------------------------

/-- The fields that the class `v` needs are set. -/
structure Directive.Mapped (dir : Directive) : Prop where
  cls    : dir.cls = .v
  name   : dir.values 0 ≠ none
  offset : dir.values 1 ≠ none
  size   : dir.values 4 ≠ none

/-- A `v` directive with all its fields makes an entry. -/
theorem Directive.Mapped.make {k : Nat} (h : dir.Mapped) : dir.make H k ≠ none := by
  obtain ⟨name, hname⟩ := Option.ne_none_iff_exists'.mp h.name
  obtain ⟨offset, hoffset⟩ := Option.ne_none_iff_exists'.mp h.offset
  obtain ⟨size, hsize⟩ := Option.ne_none_iff_exists'.mp h.size
  rw [Directive.make, h.cls, hname, hoffset, hsize]
  exact Option.some_ne_none _

/-- Its confirm leaves a block without a file. -/
theorem confirms_virtual (h : Tidy s ts) (hdir : dir.Mapped) (hconfirm : Confirms H s dir s') :
    ∃ ts', Tidy s' ts' ∧ Virtual s' ts' := by
  obtain ⟨k, q, b, q', rfl, hconfirm, rfl⟩ := hconfirm
  rcases confirm_cases h hconfirm with ⟨-, -, hnone⟩ | ⟨-, q₁, x, hinside, -, hcase⟩
  · exact absurd hnone hdir.make
  · rw [Directive.inside, hdir.cls] at hinside
    obtain rfl := Option.some.inj hinside
    rcases hcase with ⟨hun, -⟩ | ⟨-, ts', hentered⟩
    · exact absurd (hun.1.symm.trans hdir.cls) (by decide)
    · exact ⟨ts', hentered.tidy, hentered.virtual hdir.cls⟩

/-- The rest of the run leaves that block as it is. -/
theorem trace_virtual (h : Tidy s ts) (hrun : Trace (Confirms H) s dirs s') (hmem : dir ∈ dirs)
    (hdir : dir.Mapped) : ∃ ts', Tidy s' ts' ∧ Virtual s' ts' := by
  induction hrun generalizing ts with
  | nil s => cases hmem
  | cons hstep hrest ih =>
    rcases List.mem_cons.mp hmem with rfl | hmem
    · obtain ⟨ts₁, htidy₁, bl, hbl, htype, hfile⟩ := confirms_virtual h hdir hstep
      obtain ⟨ts', htidy, hsub, hkept⟩ := trace_tidy htidy₁ hrest
      obtain ⟨htype', hblock⟩ := hkept bl hbl
      exact ⟨ts', htidy, bl, hsub bl hbl, htype'.trans htype, by rw [hblock, hfile]⟩
    · obtain ⟨ts₁, htidy₁, -⟩ := confirms_tidy h hstep
      exact ih htidy₁ hmem

/-- **Virtual entries.** Over every run of directives of which one is of the class `v`, with the
fields it needs: `write_fs` does not complete. -/
theorem virtual_never_written {bs sb rperm : Nat} {rowner : Option CStr} {s s' : Image}
    (hrun : Described H bs sb rperm rowner s dirs s') (hmem : dir ∈ dirs) (hdir : dir.Mapped) :
    ¬ ∃ k g, writeFs H s' k .new = some g := by
  rintro ⟨k, g, hwrite⟩
  obtain ⟨k₀, s₀, root, hstart, htrace⟩ := hrun
  obtain ⟨ts, htidy, -⟩ := startFsd_tidy hstart
  obtain ⟨ts', htidy', hvirtual⟩ := trace_virtual htidy htrace hmem hdir
  rw [writeFs_none htidy'.sound hvirtual] at hwrite
  cases hwrite

def swapName : CStr := ⟨bytes "swap", by decide⟩

/-- A directive for the area of 4096 bytes at block 64. -/
def swapArea (par : Ptr) : Directive :=
  ⟨.v, par, fun i => if i = 0 then some swapName else if i = 1 then some ⟨bytes "64", by decide⟩ else
    if i = 4 then some ⟨bytes "4096", by decide⟩ else none⟩

/-- A swap area of the disk, alone in the root directory. -/
theorem virtual_never_written_swap :
    ∃ root s', Described hostAll 0x1000 1 0 none (State.fresh.image 2) [swapArea root] s' ∧
      ¬ ∃ k g, writeFs hostAll s' k .new = some g := by
  have hruns : ((startFsd hostAll 9 0x1000 1 0 none (State.fresh.image 2)).bind fun r =>
      confirmDirective hostAll 9 (fun _ _ q => some q) (swapArea r.2) ⟨r.1, 1, []⟩).isSome = true := by
    decide +kernel
  obtain ⟨⟨b, q⟩, hruns⟩ := Option.isSome_iff_exists.mp hruns
  obtain ⟨⟨s₀, root⟩, hstart, hconfirm⟩ := Option.bind_eq_some_iff.mp hruns
  have hrun : Described hostAll 0x1000 1 0 none (State.fresh.image 2) [swapArea root] q.image :=
    ⟨9, s₀, root, hstart, .cons ⟨9, _, b, q, rfl, hconfirm, rfl⟩ (.nil _)⟩
  exact ⟨root, q.image, hrun, virtual_never_written hrun (List.mem_singleton_self _) ⟨rfl,
    Option.some_ne_none _, Option.some_ne_none _, Option.some_ne_none _⟩⟩

def swapText : List UInt8 := bytes "v:[name = swap, offset = 64, size = 4096]\n"

/-- The description of the area is parsed without an error, and its image is not written. -/
theorem virtual_area_fails :
    ∃ k q, parseFsd hostAll k 0x1000 1 0 none swapText (State.fresh.image 2) = some q ∧ q.errors = [] ∧
      ¬ ∃ k g, writeFs hostAll q.image k .new = some g := by
  have hruns : (parseFsd hostAll 9 0x1000 1 0 none swapText (State.fresh.image 2)).any (fun q =>
      decide (q.errors = []) && q.image.nodes.any fun bl =>
        decide ((q.image.node bl).type = .BLOCK ∧ (q.image.block bl).filename = none)) = true := by
    decide +kernel
  obtain ⟨q, hparse, hcheck⟩ := (Option.any_eq_true _ _).mp hruns
  rw [Bool.and_eq_true, decide_eq_true_eq, List.any_eq_true] at hcheck
  obtain ⟨herrors, bl, hbl, hblock⟩ := hcheck
  obtain ⟨htype, hfile⟩ := of_decide_eq_true hblock
  obtain ⟨dirs, k₀, s₀, root, hstart, htrace⟩ := parseFsd_described hparse
  obtain ⟨ts, htidy, -⟩ := startFsd_tidy hstart
  obtain ⟨ts', htidy', -⟩ := trace_tidy htidy htrace
  have hgiven : bl ∈ ts' := htidy'.sound.given hbl (by rw [htype]; decide) (by rw [htype]; decide)
  refine ⟨9, q, hparse, herrors, ?_⟩
  rintro ⟨k, g, hwrite⟩
  rw [writeFs_none htidy'.sound ⟨bl, hgiven, htype, hfile⟩] at hwrite
  cases hwrite

end Text

end Frosk.Builder
