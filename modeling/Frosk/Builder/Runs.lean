import Mathlib.Tactic
import Frosk.Builder.Reaching
import Frosk.Builder.Building
import Frosk.Builder.Directives

/-!
# The image builder: what returned

What each function leaves that returned, in images of any number of metadata blocks and with
any strings: no node that was given out before has changed, but for the contents of the
directory that an entry went to. Nothing is said here about whether a call returns.

* `Sound` — the nodes of an image that were given out; `Leaves` — what is kept of them.
* `confirmDirective_some` — what the four classes have in common, and `make_made` what the
  constructor of each leaves.
* `parseDirectory_runs` — parsing is confirming one directive after another.
-/

namespace Frosk.Builder

open Lib Fs

variable {H : Host} {s s' s₁ s₂ : Image} {d d' n p x : Ptr} {ts ts' ts₁ ts₂ : List Ptr} {k : Nat}

-- ---------------------------------------------------------------------------
-- The nodes that were given out
-- ---------------------------------------------------------------------------

/-- The links of the table of strings stay in `ks`. -/
def Strings (s : Image) (ks : List Ptr) : Prop :=
  ∀ sl : Slot Ptr, (∀ x, sl.owner = some x → x ∈ ks) → s.links.load sl = NULL ∨ s.links.load sl ∈ ks

/-- The nodes `ts` of the image were given out, and the strings are among them. -/
structure Sound (s : Image) (ts : List Ptr) : Prop where
  wired : ∃ free br, Wired s.toState s.firstMeta free br ts
  table : ∃ ks, Strings s ks ∧ ∀ n ∈ ks, n ∈ ts

/-- What no function changes of the nodes `ts`, but the contents of the directory `d`. -/
structure Leaves (s s' : Image) (ts : List Ptr) (d : Ptr) : Prop where
  type   : ∀ n ∈ ts, (s'.node n).type = (s.node n).type
  common : ∀ n ∈ ts, ∃ data, s'.common n = { s.common n with data := data } ∧
    (n ≠ d → data = (s.common n).data)
  string : ∀ n ∈ ts, (s'.string n).value = (s.string n).value
  block  : ∀ n ∈ ts, s'.block n = s.block n

/-- A step that keeps everything leaves the tree. -/
theorem Keeps.leaves (h : Keeps s s' ts d) : Leaves s s' ts d :=
  ⟨fun n hn => (h.node n hn).1, h.common, fun n hn => (h.string n hn).1, h.block⟩

theorem Leaves.refl (s : Image) (ts : List Ptr) (d : Ptr) : Leaves s s ts d := (Keeps.refl s ts d).leaves

/-- Two steps that leave the nodes alone. -/
theorem Leaves.trans (h : Leaves s s₁ ts d) (h' : Leaves s₁ s' ts d) : Leaves s s' ts d where
  type n hn := (h'.type n hn).trans (h.type n hn)
  common n hn := by
    obtain ⟨data, h₁, h₂⟩ := h.common n hn
    obtain ⟨data', h₁', h₂'⟩ := h'.common n hn
    refine ⟨data', by rw [h₁', h₁], fun hd => (h₂' hd).trans ?_⟩
    rw [h₁]
    exact h₂ hd
  string n hn := (h'.string n hn).trans (h.string n hn)
  block n hn := (h'.block n hn).trans (h.block n hn)

/-- The same of fewer nodes. -/
theorem Leaves.mono (h : Leaves s s' ts' d) (hsub : ∀ n ∈ ts, n ∈ ts') : Leaves s s' ts d :=
  ⟨fun n hn => h.type n (hsub n hn), fun n hn => h.common n (hsub n hn), fun n hn => h.string n (hsub n hn),
    fun n hn => h.block n (hsub n hn)⟩

/-- Where a directory outside of `ts` changes, none in it does. -/
theorem Leaves.outside (h : Leaves s s' ts d') (hd' : d' ∉ ts) (d : Ptr) : Leaves s s' ts d where
  type := h.type
  common n hn := by
    obtain ⟨data, hcommon, hdata⟩ := h.common n hn
    exact ⟨data, hcommon, fun _ => hdata (ne_of_mem_of_not_mem hn hd')⟩
  string := h.string
  block := h.block

theorem Sound.null (h : Sound s ts) : NULL ∉ ts := by
  obtain ⟨free, br, hwired⟩ := h.wired
  exact fun hn => hwired.null ((hwired.parts NULL).mpr (.inr (.inr hn)))

/-- What is neither free nor a branch node was given out. -/
theorem Sound.given (h : Sound s ts) (hn : n ∈ s.nodes) (hfree : (s.node n).type ≠ .FREE)
    (hbranch : (s.node n).type ≠ .BRANCH) : n ∈ ts := by
  obtain ⟨free, br, hwired⟩ := h.wired
  rcases (hwired.parts n).mp hn with hn | hn | hn
  · exact absurd (hwired.free n hn).1 hfree
  · exact absurd (hwired.branch n hn).1 hbranch
  · exact hn

/-- A store that the allocator and the table do not see. -/
theorem Sound.store (h : Sound s ts) (hstate : s'.toState = s.toState) (hfirst : s'.firstMeta = s.firstMeta)
    (hlinks : s'.links = s.links) : Sound s' ts := by
  obtain ⟨ks, hks, hsub⟩ := h.table
  refine ⟨?_, ks, ?_, hsub⟩
  · rw [hstate, hfirst]
    exact h.wired
  · intro sl hsl
    rw [hlinks]
    exact hks sl hsl

/-- The type of a node that was given out may be set. -/
theorem Sound.setType (h : Sound s ts) (hx : x ∈ ts) (t : FnodeType) : Sound (s.setType x t) ts := by
  obtain ⟨free, br, hwired⟩ := h.wired
  exact ⟨⟨free, br, hwired.retype hx t⟩, h.table⟩

-- ---------------------------------------------------------------------------
-- new_node
-- ---------------------------------------------------------------------------

/-- `new_node` gives a node that was not given out, and nothing else changes. -/
theorem newNode_sound {size : Nat} (h : Sound s ts) (hnode : s.newNode H k size = some (s', x)) :
    Sound s' (x :: ts) ∧ x ∉ ts ∧ (∀ d, Leaves s s' ts d) ∧ s' = { s with toState := s'.toState } := by
  obtain ⟨⟨st, n⟩, hst, hresult⟩ := Option.map_eq_some_iff.mp hnode
  obtain ⟨rfl, rfl⟩ := Prod.mk.inj hresult
  obtain ⟨free, br, hwired⟩ := h.wired
  obtain ⟨free', br', hgives⟩ := newNode_gives hwired hst
  obtain ⟨ks, hks, hsub⟩ := h.table
  refine ⟨⟨⟨free', br', hgives.wired⟩, ks, hks, fun y hy => List.mem_cons_of_mem _ (hsub y hy)⟩, hgives.new,
    fun d => ⟨hgives.type, fun _ _ => ⟨_, rfl, fun _ => rfl⟩, fun _ _ => rfl, fun _ _ => rfl⟩, rfl⟩

-- ---------------------------------------------------------------------------
-- get_string
-- ---------------------------------------------------------------------------

/-- What `get_string` leaves: the new nodes are strings, and `p` is the one that was asked for. -/
structure Stores (s s' : Image) (ts ts' : List Ptr) (o : Option CStr) (p : Ptr) : Prop where
  sound  : Sound s' ts'
  sub    : ∀ n ∈ ts, n ∈ ts'
  new    : ∀ n ∈ ts', n ∈ ts ∨ (s'.node n).type = .STRING
  leaves : ∀ d, Leaves s s' ts d
  common : s'.common = s.common
  none   : o = none → p = NULL
  some   : ∀ str ∈ o, p ∈ ts' ∧ (s'.string p).value = str

/-- Strings that compare equal are equal. -/
theorem hostStrcmp_zero {a b : CStr} (h : hostStrcmp a b = 0) : a = b := by
  obtain ⟨hlt, hgt⟩ := hostStrcmp_sign a b
  refine hostKey_inj (le_antisymm (not_lt.mp fun hlt' => ?_) (not_lt.mp fun hgt' => ?_))
  · exact absurd (hgt.mpr hlt') (by rw [h]; exact lt_irrefl 0)
  · exact absurd (hlt.mpr hgt') (by rw [h]; exact lt_irrefl 0)

/-- The table after a new string is stored in it. -/
theorem Strings.store {ks : List Ptr} (h : Strings s ks) {sl : Slot Ptr} (hsl : sl.owner ≠ some n)
    (length : Nat) (str : CStr) :
    Strings ((s.setString n ⟨length, NULL, NULL, NULL, str⟩).storeString n sl) (n :: ks) := by
  intro sl' hown
  have hlinks := storeString_links s n NULL (fun _ => NULL) length str sl hsl
  have hload : ((s.setString n ⟨length, NULL, NULL, NULL, str⟩).storeString n sl).links.load sl' =
      ((({ s.links with parent := fun _ => NULL } : Links Ptr).create NULL n NULL).store n sl).load sl' := by
    rw [← hlinks]
    cases sl' <;> rfl
  rw [hload]
  by_cases heq : sl' = sl
  · rw [heq, Links.load_store_self]
    exact .inr (List.mem_cons_self ..)
  · rw [Links.load_store_ne heq]
    by_cases hn : sl'.owner = some n
    · -- the new string is a leaf
      cases sl' with
      | root => cases hn
      | left q =>
        obtain rfl := Option.some.inj hn
        exact .inl (Function.update_self ..)
      | right q =>
        obtain rfl := Option.some.inj hn
        exact .inl (Function.update_self ..)
    · rw [Links.load_create hn]
      refine (h sl' fun x hx => ?_).imp id fun hmem => List.mem_cons_of_mem _ hmem
      exact (List.mem_cons.mp (hown x hx)).resolve_left fun hxn => hn (hxn ▸ hx)

/-- A new string is hung into the table. -/
theorem newString_stores {str : CStr} {sl : Slot Ptr} {ks : List Ptr} (h : Sound s ts) (hks : Strings s ks)
    (hsub : ∀ n ∈ ks, n ∈ ts) (hsl : ∀ x, sl.owner = some x → x ∈ ks)
    (hnew : newString H k str sl s = some (s', p)) : ∃ ts', Stores s s' ts ts' (some str) p := by
  simp only [newString] at hnew
  split at hnew
  · cases hnew
  · obtain ⟨⟨s₁, n⟩, hnode, hresult⟩ := Option.bind_eq_some_iff.mp hnew
    obtain ⟨rfl, rfl⟩ := Prod.mk.inj (Option.some.inj hresult)
    obtain ⟨hsound, hn, hleaves, hrest⟩ := newNode_sound h hnode
    let v : StringNode := ⟨str.chars.length + 1, NULL, NULL, NULL, str⟩
    let s₂ := (s₁.setType n .STRING).setString n v
    have hown : sl.owner ≠ some n := fun hown => hn (hsub n (hsl n hown))
    have htype := hsound.setType (List.mem_cons_self ..) .STRING
    obtain ⟨hstate, hcommon, -, hfirst, -⟩ := storeString_rest s₂ n sl
    have hstrings : Strings (s₁.setType n .STRING) ks := by
      intro sl' hsl'
      have hsame : s₁.links = s.links := by rw [hrest]; rfl
      show s₁.links.load sl' = NULL ∨ s₁.links.load sl' ∈ ks
      rw [hsame]
      exact hks sl' hsl'
    refine ⟨n :: ts, ⟨?_, n :: ks, hstrings.store hown _ str, fun y hy => ?_⟩, fun y hy =>
      List.mem_cons_of_mem _ hy, fun y hy => ?_, fun d => (hleaves d).trans ?_, ?_, fun hnone =>
      absurd hnone (Option.some_ne_none _), fun str' hstr' => ?_⟩
    · rw [hstate, hfirst]
      exact htype.wired
    · rcases List.mem_cons.mp hy with rfl | hy
      · exact List.mem_cons_self ..
      · exact List.mem_cons_of_mem _ (hsub y hy)
    · rcases List.mem_cons.mp hy with rfl | hy
      · right
        rw [hstate]
        exact congrArg Node.type (setType_self s₁ y .STRING)
      · exact .inl hy
    · exact ((store_keeps hn v sl).but h.null d).leaves
    · rw [hcommon]
      show s₁.common = s.common
      rw [hrest]
    · obtain rfl := Option.some.inj hstr'
      obtain ⟨l, r, hstring⟩ := storeString_string s₂ n sl n
      have hself : s₂.string n = v := Function.update_self ..
      refine ⟨List.mem_cons_self .., ?_⟩
      rw [hstring, hself]

/-- `get_string` returns a string of the table, or `NULL` for none. -/
theorem getString_stores {o : Option CStr} (h : Sound s ts) (hget : getString H k o s = some (s', p)) :
    ∃ ts', Stores s s' ts ts' o p := by
  cases o with
  | none =>
    obtain ⟨rfl, rfl⟩ := Prod.mk.inj (Option.some.inj hget)
    exact ⟨ts, h, fun _ hn => hn, fun _ hn => .inl hn, fun d => .refl s ts d, rfl, fun _ => rfl,
      fun str hstr => absurd hstr (Option.not_mem_none str)⟩
  | some str =>
    obtain ⟨ks, hks, hsub⟩ := h.table
    obtain ⟨⟨sl, lp⟩, hdescend, hresult⟩ := Option.bind_eq_some_iff.mp hget
    have hroot : ∀ x, (Slot.root : Slot Ptr).owner = some x → x ∈ ks := by
      intro x hx
      cases hx
    obtain ⟨hsl, hload⟩ := descend_within hks hroot hdescend
    by_cases hnull : s.links.load sl = NULL
    · simp only [hnull, ne_eq, not_true, if_false] at hresult
      exact newString_stores h hks hsub hsl hresult
    · simp only [ne_eq, hnull, not_false_eq_true, if_true] at hresult
      obtain ⟨rfl, rfl⟩ := Prod.mk.inj (Option.some.inj hresult)
      obtain ⟨hmem, hcmp⟩ := hload.resolve_left hnull
      refine ⟨ts, h, fun _ hn => hn, fun _ hn => .inl hn, fun d => .refl s ts d, rfl, fun hnone =>
        absurd hnone (Option.some_ne_none _), fun str' hstr' => ?_⟩
      obtain rfl := Option.some.inj hstr'
      exact ⟨hsub _ hmem, (hostStrcmp_zero hcmp).symm⟩

-- ---------------------------------------------------------------------------
-- new_common
-- ---------------------------------------------------------------------------

/-- What the constructors leave: the entry `x`, in front of what was in `d`. -/
structure Made (s s' : Image) (ts ts' : List Ptr) (d x : Ptr) (name : Option CStr) : Prop where
  sound  : Sound s' ts'
  sub    : ∀ n ∈ ts, n ∈ ts'
  leaves : Leaves s s' ts d
  mem    : x ∈ ts'
  new    : x ∉ ts
  others : ∀ n ∈ ts', n ∈ ts ∨ n = x ∨ (s'.node n).type ≠ .DIRECTORY
  next   : d ∈ ts → (s'.common x).next = (s.common d).data ∧ (s'.common d).data = x
  name   : ∀ str ∈ name, (s'.common x).name ∈ ts' ∧ (s'.string (s'.common x).name).value = str

/-- The links of a new entry are stored in it and in its directory. -/
theorem enter_leaves (hn : n ∉ ts) (henter : s.enter n d = some s') :
    Leaves s s' ts d ∧ s'.toState = s.toState ∧ s'.firstMeta = s.firstMeta ∧ s'.links = s.links := by
  rw [Image.enter] at henter
  split_ifs at henter with hnull htype
  · obtain rfl := Option.some.inj henter
    exact ⟨((setCommon_keeps hn _ d).trans (setData_keeps ts n)).leaves, rfl, rfl, rfl⟩
  · obtain rfl := Option.some.inj henter
    exact ⟨(setCommon_keeps hn _ d).leaves, rfl, rfl, rfl⟩

/-- The links of the new entry and of its directory. -/
theorem enter_links (henter : s.enter n d = some s') :
    (d = NULL → (s'.common n).next = NULL) ∧
    (d ≠ NULL → (s.node d).type = .DIRECTORY ∧ (d ≠ n → (s'.common n).next = (s.common d).data ∧
      (s'.common d).data = n)) := by
  rw [Image.enter] at henter
  split_ifs at henter with hnull htype
  · obtain rfl := Option.some.inj henter
    refine ⟨fun hz => absurd hz hnull, fun _ => ⟨not_not.mp htype, fun hne => ⟨?_, ?_⟩⟩⟩
    · rw [setCommon_ne _ hne.symm, setCommon_self]
    · rw [setCommon_self]
  · obtain rfl := Option.some.inj henter
    refine ⟨fun _ => ?_, fun hne => absurd hne hnull⟩
    rw [setCommon_self]

/-- `new_common` makes an entry with the name, the first of its directory. -/
theorem newCommon_made {name : Option CStr} (h : Sound s ts) (hnew : newCommon H k name d s = some (s', x)) :
    ∃ ts', Made s s' ts ts' d x name ∧ (∀ n ∈ ts', n ∈ ts ∨ n = x ∨ (s'.node n).type = .STRING) ∧
      (d = NULL → (s'.common x).next = NULL) ∧ (d ∈ ts → (s.node d).type = .DIRECTORY) := by
  obtain ⟨⟨s₁, n⟩, hnode, hnew⟩ := Option.bind_eq_some_iff.mp hnew
  obtain ⟨s₂, henter, hnew⟩ := Option.bind_eq_some_iff.mp hnew
  obtain ⟨⟨s₃, p⟩, hget, hresult⟩ := Option.bind_eq_some_iff.mp hnew
  obtain ⟨rfl, rfl⟩ := Prod.mk.inj (Option.some.inj hresult)
  obtain ⟨hsound₁, hn, hleaves₁, hrest⟩ := newNode_sound h hnode
  obtain ⟨hleaves₂, hstate, hfirst, hlinks⟩ := enter_leaves hn henter
  obtain ⟨hroot, hdir⟩ := enter_links henter
  obtain ⟨ts', hst⟩ := getString_stores (hsound₁.store hstate hfirst hlinks) hget
  let s₄ := s₃.setCommon n fun v => { v with name := p }
  have hnext : (s₄.common n).next = (s₂.common n).next := by
    rw [show s₄.common n = _ from setCommon_self s₃ n _, hst.common]
  have hothers : ∀ y ∈ ts', y ∈ ts ∨ y = n ∨ (s₄.node y).type = .STRING := by
    intro y hy
    rcases hst.new y hy with hy | htype
    · rcases List.mem_cons.mp hy with rfl | hy
      · exact .inr (.inl rfl)
      · exact .inl hy
    · exact .inr (.inr htype)
  have hleaves₃ : Leaves s₂ s₃ ts d := (hst.leaves d).mono fun y hy => List.mem_cons_of_mem _ hy
  refine ⟨ts', ⟨hst.sound.store rfl rfl rfl, fun y hy => hst.sub y (List.mem_cons_of_mem _ hy), ?_,
    hst.sub n (List.mem_cons_self ..), hn, fun y hy => ?_, fun hd => ?_, fun str hstr => ?_⟩,
    hothers, fun hz => ?_, fun hd => ?_⟩
  · exact (hleaves₁ d).trans (hleaves₂.trans (hleaves₃.trans (setCommon_keeps hn _ d).leaves))
  · refine (hothers y hy).imp_right fun hy => hy.imp_right fun htype => ?_
    rw [htype]
    decide
  · have hdn : d ≠ n := ne_of_mem_of_not_mem hd hn
    have hdz : d ≠ NULL := ne_of_mem_of_not_mem hd h.null
    obtain ⟨hnext', hdata⟩ := (hdir hdz).2 hdn
    constructor
    · rw [hnext, hnext', hrest]
    · rw [setCommon_ne s₃ hdn, hst.common]
      exact hdata
  · rw [setCommon_self]
    exact hst.some str hstr
  · rw [hnext]
    exact hroot hz
  · rw [← (hleaves₁ d).type d hd]
    exact (hdir (ne_of_mem_of_not_mem hd h.null)).1

-- ---------------------------------------------------------------------------
-- The constructors
-- ---------------------------------------------------------------------------

/-- A type is stored in the new entry. -/
theorem Made.setType {name : Option CStr} (h : Made s s' ts ts' d x name) (t : FnodeType) :
    Made s (s'.setType x t) ts ts' d x name := by
  have hother : ∀ y, y ≠ x → (s'.setType x t).node y = s'.node y := fun y hy => setType_ne s' hy t
  refine ⟨h.sound.setType h.mem t, h.sub, h.leaves.trans (setType_keeps h.new t d).leaves, h.mem, h.new,
    fun y hy => ?_, h.next, h.name⟩
  by_cases hyx : y = x
  · exact .inr (.inl hyx)
  · rw [hother y hyx]
    exact h.others y hy

/-- Something else is stored in the new entry. -/
theorem Made.setEntry {name : Option CStr} (h : Made s s' ts ts' d x name) (f : Common → Common)
    (hf : ∀ v, (f v).next = v.next ∧ (f v).name = v.name) : Made s (s'.setCommon x f) ts ts' d x name := by
  refine ⟨h.sound.store rfl rfl rfl, h.sub, h.leaves.trans (setCommon_keeps h.new _ d).leaves, h.mem, h.new,
    h.others, fun hd => ?_, fun str hstr => ?_⟩
  · have hdx : d ≠ x := ne_of_mem_of_not_mem hd h.new
    rw [setCommon_self, setCommon_ne s' hdx, (hf _).1]
    exact h.next hd
  · rw [setCommon_self, (hf _).2]
    exact h.name str hstr

/-- A call that leaves what was given out, the entry included. -/
theorem Made.leave {name : Option CStr} (h : Made s s₁ ts ts₁ d x name) (hsound : Sound s' ts')
    (hsub : ∀ n ∈ ts₁, n ∈ ts') (hleaves : ∀ d, Leaves s₁ s' ts₁ d) (hcommon : s'.common = s₁.common)
    (hnew : ∀ n ∈ ts', n ∈ ts₁ ∨ (s'.node n).type ≠ .DIRECTORY) : Made s s' ts ts' d x name := by
  refine ⟨hsound, fun y hy => hsub y (h.sub y hy), h.leaves.trans ((hleaves d).mono h.sub),
    hsub x h.mem, h.new, fun y hy => ?_, fun hd => ?_, fun str hstr => ?_⟩
  · rcases hnew y hy with hy | htype
    · rw [(hleaves d).type y hy]
      exact h.others y hy
    · exact .inr (.inr htype)
  · rw [hcommon]
    exact h.next hd
  · obtain ⟨hmem, hvalue⟩ := h.name str hstr
    rw [hcommon]
    exact ⟨hsub _ hmem, ((hleaves d).string _ hmem).trans hvalue⟩

/-- The block node of a file. -/
theorem newBlock_made {name filename : Option CStr} {lba size : Nat} {bl : Ptr}
    (h : Made s s₁ ts ts₁ d x name) (hnew : newBlock H k x filename lba size s₁ = some (s', bl)) :
    ∃ ts', Made s s' ts ts' d x name ∧ (s'.node x).type = (s₁.node x).type ∧ bl ∈ ts' ∧
      (s'.node bl).type = .BLOCK ∧ (s'.block bl).filename = filename := by
  obtain ⟨⟨s₂, n⟩, hnode, hresult⟩ := Option.bind_eq_some_iff.mp hnew
  obtain ⟨rfl, rfl⟩ := Prod.mk.inj (Option.some.inj hresult)
  obtain ⟨hsound, hn, hleaves, hrest⟩ := newNode_sound h.sound hnode
  let s₃ := (s₂.setType n .BLOCK).setBlock n ⟨filename, NULL, lba, size⟩
  have hstore : Sound s₃ (n :: ts₁) :=
    (hsound.setType (List.mem_cons_self ..) .BLOCK).store rfl rfl rfl
  have hleaves₃ : ∀ d, Leaves s₁ s₃ ts₁ d := by
    intro d
    refine (hleaves d).trans ((setType_keeps hn .BLOCK d).leaves.trans ?_)
    exact ⟨fun _ _ => rfl, fun _ _ => ⟨_, rfl, fun _ => rfl⟩, fun _ _ => rfl, fun y hy =>
      Function.update_of_ne (ne_of_mem_of_not_mem hy hn) ..⟩
  have htype : (s₃.node n).type = .BLOCK := congrArg Node.type (setType_self s₂ n .BLOCK)
  have hmade : Made s s₃ ts (n :: ts₁) d x name := by
    refine h.leave hstore (fun _ hy => List.mem_cons_of_mem _ hy) hleaves₃ ?_ fun y hy => ?_
    · show s₂.common = s₁.common
      rw [hrest]
    · rcases List.mem_cons.mp hy with rfl | hy
      · right
        rw [htype]
        decide
      · exact .inl hy
  refine ⟨n :: ts₁, hmade.setEntry _ fun _ => ⟨rfl, rfl⟩, (hleaves₃ d).type x h.mem,
    List.mem_cons_self .., htype, ?_⟩
  show (Function.update s₂.block n ⟨filename, NULL, lba, size⟩ n).filename = filename
  rw [Function.update_self]

/-- `new_file`, which is `NULL` if the host has no such file. -/
theorem newFile_made {name actual : CStr} (h : Sound s ts)
    (hnew : newFile H k name actual d s = some (s', x)) :
    (H.file actual = none ∧ s' = s ∧ x = NULL) ∨ H.file actual ≠ none ∧
      ∃ ts', Made s s' ts ts' d x (some name) ∧ (s'.node x).type = .FILE := by
  rw [newFile] at hnew
  cases hfile : H.file actual with
  | none =>
    rw [hfile] at hnew
    obtain ⟨rfl, rfl⟩ := Prod.mk.inj (Option.some.inj hnew)
    exact .inl ⟨rfl, rfl, rfl⟩
  | some bytes =>
    rw [hfile] at hnew
    obtain ⟨⟨s₁, n⟩, hcommon, hnew⟩ := Option.bind_eq_some_iff.mp hnew
    obtain ⟨⟨s₂, bl⟩, hblock, hresult⟩ := Option.bind_eq_some_iff.mp hnew
    obtain ⟨rfl, rfl⟩ := Prod.mk.inj (Option.some.inj hresult)
    obtain ⟨ts₁, hmade₁, -⟩ := newCommon_made h hcommon
    obtain ⟨ts₂, hmade₂, htype, -⟩ := newBlock_made (hmade₁.setType .FILE) hblock
    obtain ⟨free, br, hwired⟩ := hmade₂.sound.wired
    have hsound : Sound
        { s₂ with nextLba := (s₂.nextLba + align bytes.length s₂.blockSize / s₂.blockSize) % wordSize }
        ts₂ := ⟨⟨free, br, hwired.setLba _⟩, hmade₂.sound.table⟩
    refine .inr ⟨Option.some_ne_none _, ts₂,
      hmade₂.leave hsound (fun _ hy => hy) (fun d => ?_) rfl fun _ hy => .inl hy, ?_⟩
    · exact ⟨fun _ _ => rfl, fun _ _ => ⟨_, rfl, fun _ => rfl⟩, fun _ _ => rfl, fun _ _ => rfl⟩
    · exact htype.trans (congrArg Node.type (setType_self s₁ n .FILE))

/-- `new_virt` makes an entry whose block has no file. -/
theorem newVirt_made {name : CStr} {lba size : Nat} (h : Sound s ts)
    (hnew : newVirt H k name lba size d s = some (s', x)) :
    ∃ ts' bl, Made s s' ts ts' d x (some name) ∧ (s'.node x).type = .FILE ∧ bl ∈ ts' ∧
      (s'.node bl).type = .BLOCK ∧ (s'.block bl).filename = none := by
  obtain ⟨⟨s₁, n⟩, hcommon, hnew⟩ := Option.bind_eq_some_iff.mp hnew
  obtain ⟨⟨s₂, bl⟩, hblock, hresult⟩ := Option.bind_eq_some_iff.mp hnew
  obtain ⟨rfl, rfl⟩ := Prod.mk.inj (Option.some.inj hresult)
  obtain ⟨ts₁, hmade₁, -⟩ := newCommon_made h hcommon
  obtain ⟨ts₂, hmade₂, htype, hbl⟩ := newBlock_made (hmade₁.setType .FILE) hblock
  exact ⟨ts₂, bl, hmade₂, htype.trans (congrArg Node.type (setType_self s₁ n .FILE)), hbl⟩

/-- `new_dir` makes an empty directory. -/
theorem newDir_made {name : Option CStr} (h : Sound s ts) (hnew : newDir H k name d s = some (s', x)) :
    ∃ ts', Made s s' ts ts' d x name ∧ (s'.node x).type = .DIRECTORY ∧ (s'.common x).data = NULL := by
  obtain ⟨⟨s₁, n⟩, hcommon, hresult⟩ := Option.bind_eq_some_iff.mp hnew
  obtain ⟨rfl, rfl⟩ := Prod.mk.inj (Option.some.inj hresult)
  obtain ⟨ts₁, hmade₁, -⟩ := newCommon_made h hcommon
  refine ⟨ts₁, (hmade₁.setType .DIRECTORY).setEntry _ fun _ => ⟨rfl, rfl⟩, ?_, ?_⟩
  · exact congrArg Node.type (setType_self s₁ n .DIRECTORY)
  · rw [setCommon_self]

/-- `new_indir` makes an entry that leads elsewhere. -/
theorem newIndir_made {name target : CStr} (h : Sound s ts)
    (hnew : newIndir H k name target d s = some (s', x)) :
    ∃ ts', Made s s' ts ts' d x (some name) ∧ (s'.node x).type = .INDIRECT := by
  obtain ⟨⟨s₁, n⟩, hcommon, hnew⟩ := Option.bind_eq_some_iff.mp hnew
  obtain ⟨⟨s₂, p⟩, hget, hresult⟩ := Option.bind_eq_some_iff.mp hnew
  obtain ⟨rfl, rfl⟩ := Prod.mk.inj (Option.some.inj hresult)
  obtain ⟨ts₁, hmade₁, -⟩ := newCommon_made h hcommon
  have hmade := hmade₁.setType .INDIRECT
  obtain ⟨ts₂, hst⟩ := getString_stores hmade.sound hget
  have hmade₂ : Made s s₂ ts ts₂ d n (some name) := by
    refine hmade.leave hst.sound hst.sub hst.leaves hst.common fun y hy =>
      (hst.new y hy).imp_right fun htype => ?_
    rw [htype]
    decide
  refine ⟨ts₂, hmade₂.setEntry _ fun _ => ⟨rfl, rfl⟩, ?_⟩
  show (s₂.node n).type = .INDIRECT
  rw [(hst.leaves d).type n hmade.mem]
  exact congrArg Node.type (setType_self s₁ n .INDIRECT)

-- ---------------------------------------------------------------------------
-- confirm_common
-- ---------------------------------------------------------------------------

/-- Permission and owner are stored in the new entry. -/
theorem confirmCommon_made {name : Option CStr} {fields : Fields} (h : Made s s₁ ts ts₁ d x name)
    (hconfirm : confirmCommon H k fields x s₁ = some s') :
    ∃ ts', Made s s' ts ts' d x name ∧ (∀ n ∈ ts₁, n ∈ ts') ∧ (s'.common x).data = (s₁.common x).data ∧
      ∀ n ∈ ts₁, (s'.node n).type = (s₁.node n).type ∧ s'.block n = s₁.block n := by
  have hx : x ≠ NULL := ne_of_mem_of_not_mem h.mem h.sound.null
  have hperm : Made s (s₁.setPerm x fields) ts ts₁ d x name := h.setEntry _ fun _ => ⟨rfl, rfl⟩
  have hdata : ((s₁.setPerm x fields).common x).data = (s₁.common x).data := by
    rw [Image.setPerm, setCommon_self]
  cases howner : fields.owner with
  | none =>
    rw [confirmCommon_none hx howner] at hconfirm
    obtain rfl := Option.some.inj hconfirm
    exact ⟨ts₁, hperm, fun _ hn => hn, hdata, fun _ _ => ⟨rfl, rfl⟩⟩
  | some owner =>
    rw [confirmCommon_some hx howner] at hconfirm
    obtain ⟨⟨s₂, p⟩, hget, rfl⟩ := Option.map_eq_some_iff.mp hconfirm
    obtain ⟨ts', hst⟩ := getString_stores hperm.sound hget
    have hleft : Made s s₂ ts ts' d x name := by
      refine hperm.leave hst.sound hst.sub hst.leaves hst.common fun y hy =>
        (hst.new y hy).imp_right fun htype => ?_
      rw [htype]
      decide
    refine ⟨ts', hleft.setEntry _ fun _ => ⟨rfl, rfl⟩, hst.sub, ?_, fun n hn =>
      ⟨(hst.leaves d).type n hn, (hst.leaves d).block n hn⟩⟩
    rw [setCommon_self, hst.common]
    exact hdata

/-- There is nothing to store through `NULL`. -/
theorem confirmCommon_null {fields : Fields} (hconfirm : confirmCommon H k fields NULL s = some s') :
    fields.perm = none ∧ fields.owner = none ∧ s' = s := by
  unfold confirmCommon at hconfirm
  cases hperm : fields.perm with
  | some perm => simp [hperm] at hconfirm
  | none =>
    cases howner : fields.owner with
    | none =>
      simp only [hperm, howner, Option.bind_eq_bind, Option.bind_some, Option.some.injEq] at hconfirm
      exact ⟨rfl, rfl, hconfirm.symm⟩
    | some owner =>
      simp only [hperm, howner, Option.bind_eq_bind, Option.bind_some, if_true] at hconfirm
      obtain ⟨r, -, hr⟩ := Option.bind_eq_some_iff.mp hconfirm
      cases hr

-- ---------------------------------------------------------------------------
-- Directories
-- ---------------------------------------------------------------------------

/-- The entries of a directory from `p` on. -/
def Entries (s : Image) : Ptr → List Ptr → Prop
  | p, [] => p = NULL
  | p, x :: es => p = x ∧ x ≠ NULL ∧ Entries s (s.common x).next es

/-- Every directory has a list of entries. -/
structure Tidy (s : Image) (ts : List Ptr) : Prop where
  sound : Sound s ts
  dirs  : ∀ n ∈ ts, (s.node n).type = .DIRECTORY → ∃ es, Entries s (s.common n).data es ∧ ∀ x ∈ es, x ∈ ts

/-- A chain of entries stays as it is. -/
theorem Entries.leaves {es : List Ptr} (h : Entries s p es) (hes : ∀ x ∈ es, x ∈ ts) (hl : Leaves s s' ts d) :
    Entries s' p es := by
  induction es generalizing p with
  | nil => exact h
  | cons x es ih =>
    obtain ⟨rfl, hnull, hrest⟩ := h
    obtain ⟨data, hcommon, -⟩ := hl.common p (hes p (List.mem_cons_self ..))
    refine ⟨rfl, hnull, ?_⟩
    rw [hcommon]
    exact ih hrest fun x hx => hes x (List.mem_cons_of_mem _ hx)

/-- The new entry is in front of those that its directory had. -/
theorem Made.entries {name : Option CStr} {es : List Ptr} (h : Made s s' ts ts' d x name) (hd : d ∈ ts)
    (hes : Entries s (s.common d).data es) (hsub : ∀ n ∈ es, n ∈ ts) :
    Entries s' (s'.common d).data (x :: es) := by
  obtain ⟨hnext, hdata⟩ := h.next hd
  refine ⟨hdata, ne_of_mem_of_not_mem h.mem h.sound.null, ?_⟩
  rw [hnext]
  exact hes.leaves hsub h.leaves

/-- The image stays in order with a new entry. -/
theorem Made.tidy {name : Option CStr} (h : Tidy s ts) (hmade : Made s s' ts ts' d x name)
    (hempty : (s'.node x).type = .DIRECTORY → (s'.common x).data = NULL) : Tidy s' ts' := by
  refine ⟨hmade.sound, ?_⟩
  intro n hn htype
  rcases hmade.others n hn with hn | rfl | hne
  · rw [hmade.leaves.type n hn] at htype
    obtain ⟨es, hes, hsub⟩ := h.dirs n hn htype
    by_cases hnd : n = d
    · subst hnd
      refine ⟨x :: es, hmade.entries hn hes hsub, ?_⟩
      intro y hy
      rcases List.mem_cons.mp hy with rfl | hy
      · exact hmade.mem
      · exact hmade.sub y (hsub y hy)
    · obtain ⟨data, hcommon, hdata⟩ := hmade.leaves.common n hn
      refine ⟨es, ?_, fun y hy => hmade.sub y (hsub y hy)⟩
      rw [hcommon, hdata hnd]
      exact hes.leaves hsub hmade.leaves
  · exact ⟨[], hempty htype, fun _ hy => absurd hy List.not_mem_nil⟩
  · exact absurd htype hne

namespace Text

variable {q q' : Parser} {dir : Directive} {sub : Source → Ptr → Parser → Option Parser} {b : Bool}

-- ---------------------------------------------------------------------------
-- What the classes have in common
-- ---------------------------------------------------------------------------

/-- The name of the entry and the call that makes it; `none` if a field is not set that the class
needs. -/
def Directive.make (dir : Directive) (H : Host) (k : Nat) :
    Option (CStr × (Image → Option (Image × Ptr))) :=
  match dir.cls, dir.values 0, dir.values 1, dir.values 4 with
  | .f, some name, some actual, _ => some (name, newFile H k name actual dir.par)
  | .d, some name, _, _ => some (name, newDir H k (some name) dir.par)
  | .i, some name, some target, _ => some (name, newIndir H k name target dir.par)
  | .v, some name, some offset, some size => some (name, newVirt H k name (atoi offset % wordSize).toNat
      (atoi size % wordSize).toNat dir.par)
  | _, _, _, _ => none

/-- What is done with the contents, for a directory that has some. -/
def Directive.inside (dir : Directive) (sub : Source → Ptr → Parser → Option Parser) (nd : Ptr)
    (q : Parser) : Option Parser :=
  match dir.cls, dir.values 1 with
  | .d, some contents => sub (sourceString contents) nd q
  | _, _ => some q

/-- Where a field is missing nothing is made. -/
theorem confirmDirective_none (h : dir.make H k = none) :
    confirmDirective H k sub dir q = some (false, q) := by
  obtain ⟨cls, par, values⟩ := dir
  cases cls with
  | f =>
    cases h₀ : values 0 with
    | none => simp only [confirmDirective, fconfirm, h₀]
    | some name =>
      cases h₁ : values 1 with
      | none => simp only [confirmDirective, fconfirm, h₀, h₁]
      | some actual => simp only [Directive.make, h₀, h₁, reduceCtorEq] at h
  | d =>
    cases h₀ : values 0 with
    | none => simp only [confirmDirective, dconfirm, h₀]
    | some name => simp only [Directive.make, h₀, reduceCtorEq] at h
  | i =>
    cases h₀ : values 0 with
    | none => simp only [confirmDirective, iconfirm, h₀]
    | some name =>
      cases h₁ : values 1 with
      | none => simp only [confirmDirective, iconfirm, h₀, h₁]
      | some target => simp only [Directive.make, h₀, h₁, reduceCtorEq] at h
  | v =>
    cases h₀ : values 0 with
    | none => simp only [confirmDirective, vconfirm, h₀]
    | some name =>
      cases h₁ : values 1 with
      | none => simp only [confirmDirective, vconfirm, h₀, h₁]
      | some offset =>
        cases h₄ : values 4 with
        | none => simp only [confirmDirective, vconfirm, h₀, h₁, h₄]
        | some size => simp only [Directive.make, h₀, h₁, h₄, reduceCtorEq] at h

/-- A directive with the fields that its class needs. -/
theorem confirmDirective_some {name : CStr} {make : Image → Option (Image × Ptr)}
    (h : dir.make H k = some (name, make)) : confirmDirective H k sub dir q =
      (make q.image).bind fun r =>
        (confirmCommon H k ⟨name, dir.values 2, dir.values 3⟩ r.2 { q with image := r.1 }).bind fun q =>
          (dir.inside sub r.2 q).map fun q => (true, q) := by
  rw [Directive.make] at h
  split at h
  next hcls hname hactual =>
    obtain ⟨rfl, rfl⟩ := Prod.mk.inj (Option.some.inj h)
    simp only [confirmDirective, hcls, fconfirm, hname, hactual, Directive.inside, Option.bind_eq_bind,
      Option.map_some]
  next hcls hname =>
    obtain ⟨rfl, rfl⟩ := Prod.mk.inj (Option.some.inj h)
    cases hcontents : dir.values 1 with
    | none =>
      simp only [confirmDirective, hcls, dconfirm, hname, hcontents, Directive.inside,
        Option.bind_eq_bind, Option.map_some]
    | some contents =>
      simp only [confirmDirective, hcls, dconfirm, hname, hcontents, Directive.inside,
        Option.bind_eq_bind, Option.map_eq_bind]
      rfl
  next hcls hname htarget =>
    obtain ⟨rfl, rfl⟩ := Prod.mk.inj (Option.some.inj h)
    simp only [confirmDirective, hcls, iconfirm, hname, htarget, Directive.inside, Option.bind_eq_bind,
      Option.map_some]
  next hcls hname hoffset hsize =>
    obtain ⟨rfl, rfl⟩ := Prod.mk.inj (Option.some.inj h)
    simp only [confirmDirective, hcls, vconfirm, hname, hoffset, hsize, Directive.inside,
      Option.bind_eq_bind, Option.map_some]
  next => cases h

/-- The class reads a file of the host, which the host has not. -/
def Unreadable (H : Host) (dir : Directive) : Prop :=
  dir.cls = .f ∧ dir.values 0 ≠ none ∧ ∃ actual, dir.values 1 = some actual ∧ H.file actual = none

/-- An entry of class `v` has a block node without a file. -/
def Virtual (s : Image) (ts : List Ptr) : Prop :=
  ∃ bl ∈ ts, (s.node bl).type = .BLOCK ∧ (s.block bl).filename = none

/-- What the calls of a confirm function make: nothing, if a file cannot be read, or one entry. -/
theorem make_made {name : CStr} {make : Image → Option (Image × Ptr)} (h : Sound s ts)
    (hmake : dir.make H k = some (name, make)) (hrun : make s = some (s', x)) :
    (Unreadable H dir ∧ s' = s ∧ x = NULL) ∨ ¬ Unreadable H dir ∧ ∃ ts',
      Made s s' ts ts' dir.par x (some name) ∧
      ((s'.node x).type = .DIRECTORY → (s'.common x).data = NULL) ∧ (dir.cls = .v → Virtual s' ts') := by
  rw [Directive.make] at hmake
  split at hmake
  next hcls hname hactual =>
    obtain ⟨rfl, rfl⟩ := Prod.mk.inj (Option.some.inj hmake)
    rcases newFile_made h hrun with ⟨hfile, hs, hx⟩ | ⟨hfile, ts', hmade, htype⟩
    · exact .inl ⟨⟨hcls, by rw [hname]; exact Option.some_ne_none _, _, hactual, hfile⟩, hs, hx⟩
    · refine .inr ⟨?_, ts', hmade, ?_, ?_⟩
      · rintro ⟨-, -, actual, hactual', hnone⟩
        obtain rfl := Option.some.inj (hactual'.symm.trans hactual)
        exact hfile hnone
      · intro hdir
        rw [htype] at hdir
        cases hdir
      · intro hv
        rw [hcls] at hv
        cases hv
  next hcls hname =>
    obtain ⟨rfl, rfl⟩ := Prod.mk.inj (Option.some.inj hmake)
    obtain ⟨ts', hmade, -, hdata⟩ := newDir_made h hrun
    refine .inr ⟨fun hf => ?_, ts', hmade, fun _ => hdata, fun hv => ?_⟩
    · exact absurd (hf.1.symm.trans hcls) (by decide)
    · exact absurd (hv.symm.trans hcls) (by decide)
  next hcls hname htarget =>
    obtain ⟨rfl, rfl⟩ := Prod.mk.inj (Option.some.inj hmake)
    obtain ⟨ts', hmade, htype⟩ := newIndir_made h hrun
    refine .inr ⟨?_, ts', hmade, ?_, ?_⟩
    · intro hf
      exact absurd (hf.1.symm.trans hcls) (by decide)
    · intro hdir
      exact absurd (hdir.symm.trans htype) (by decide)
    · intro hv
      exact absurd (hv.symm.trans hcls) (by decide)
  next hcls hname hoffset hsize =>
    obtain ⟨rfl, rfl⟩ := Prod.mk.inj (Option.some.inj hmake)
    obtain ⟨ts', bl, hmade, htype, hbl⟩ := newVirt_made h hrun
    refine .inr ⟨fun hf => ?_, ts', hmade, fun hdir => ?_, fun _ => ⟨bl, hbl⟩⟩
    · exact absurd (hf.1.symm.trans hcls) (by decide)
    · exact absurd (hdir.symm.trans htype) (by decide)
  next => cases hmake

-- ---------------------------------------------------------------------------
-- Runs of directives
-- ---------------------------------------------------------------------------

/-- One directive is confirmed. What is in its contents are directives of their own. -/
def Confirms (H : Host) (s : Image) (dir : Directive) (s' : Image) : Prop :=
  ∃ k q b q', q.image = s ∧ confirmDirective H k (fun _ _ q => some q) dir q = some (b, q') ∧ q'.image = s'

/-- A directive that makes an entry has a name. -/
theorem make_name {name : CStr} {make : Image → Option (Image × Ptr)}
    (hmake : dir.make H k = some (name, make)) : dir.values 0 = some name := by
  rw [Directive.make] at hmake
  split at hmake
  all_goals cases hmake
  all_goals assumption

/-- The entry `x` that a directive made, with its permission and its owner, before its contents. -/
structure Entered (H : Host) (s s' : Image) (ts ts' : List Ptr) (dir : Directive) (x : Ptr) : Prop where
  tidy    : Tidy s' ts'
  made    : ∃ name, dir.values 0 = some name ∧ Made s s' ts ts' dir.par x (some name)
  virtual : dir.cls = .v → Virtual s' ts'

/-- After `confirm_common` the entry is linked, or there is none. -/
theorem confirmCommon_entered {name : CStr} {make : Image → Option (Image × Ptr)} {fields : Fields}
    (h : Tidy s ts) (hmake : dir.make H k = some (name, make)) (hrun : make s = some (s₁, x))
    (hconfirm : Builder.confirmCommon H k fields x s₁ = some s') :
    (Unreadable H dir ∧ x = NULL ∧ s' = s) ∨ ¬ Unreadable H dir ∧ ∃ ts', Entered H s s' ts ts' dir x := by
  rcases make_made h.sound hmake hrun with ⟨hun, rfl, rfl⟩ | ⟨hun, ts₁, hmade, hempty, hvirtual⟩
  · exact .inl ⟨hun, rfl, (confirmCommon_null hconfirm).2.2⟩
  · obtain ⟨ts', hmade', hsub, hdata, hkept⟩ := confirmCommon_made hmade hconfirm
    refine .inr ⟨hun, ts', hmade'.tidy h fun htype => ?_, ⟨name, make_name hmake, hmade'⟩, fun hv => ?_⟩
    · rw [(hkept x hmade.mem).1] at htype
      exact hdata.trans (hempty htype)
    · obtain ⟨bl, hbl, htype, hfile⟩ := hvirtual hv
      obtain ⟨htype', hblock⟩ := hkept bl hbl
      exact ⟨bl, hsub bl hbl, htype'.trans htype, by rw [hblock, hfile]⟩

/-- What a directive leaves that was confirmed, or was not. -/
theorem confirm_cases (h : Tidy q.image ts) (hconfirm : confirmDirective H k sub dir q = some (b, q')) :
    (b = false ∧ q' = q ∧ dir.make H k = none) ∨ (b = true ∧ ∃ q₁ x, dir.inside sub x q₁ = some q' ∧
      Confirms H q.image dir q₁.image ∧ ((Unreadable H dir ∧ q₁.image = q.image) ∨
        ¬ Unreadable H dir ∧ ∃ ts', Entered H q.image q₁.image ts ts' dir x)) := by
  cases hmake : dir.make H k with
  | none =>
    rw [confirmDirective_none hmake] at hconfirm
    obtain ⟨rfl, rfl⟩ := Prod.mk.inj (Option.some.inj hconfirm)
    exact .inl ⟨rfl, rfl, rfl⟩
  | some r =>
    obtain ⟨name, make⟩ := r
    rw [confirmDirective_some hmake] at hconfirm
    obtain ⟨⟨s₁, x⟩, hrun, hconfirm⟩ := Option.bind_eq_some_iff.mp hconfirm
    obtain ⟨q₁, hcommon, hconfirm⟩ := Option.bind_eq_some_iff.mp hconfirm
    obtain ⟨q₂, hinside, hresult⟩ := Option.map_eq_some_iff.mp hconfirm
    obtain ⟨rfl, rfl⟩ := Prod.mk.inj hresult
    obtain ⟨image, himage, rfl⟩ := Option.map_eq_some_iff.mp hcommon
    refine .inr ⟨rfl, _, x, hinside, ⟨k, q, true, _, rfl, ?_, rfl⟩, ?_⟩
    · have hself : ∀ q, dir.inside (fun _ _ q => some q) x q = some q := by
        intro q
        rw [Directive.inside]
        split <;> rfl
      rw [confirmDirective_some hmake, hrun, Option.bind_some, hcommon, Option.bind_some, hself]
      rfl
    · exact (confirmCommon_entered h hmake hrun himage).imp (fun hun => ⟨hun.1, hun.2.2⟩) id

-- ---------------------------------------------------------------------------
-- Parsing
-- ---------------------------------------------------------------------------

section Reading

variable {src src' : Source} {c type : Int} {first : Bool} {dir' : Directive} {str : CStr} {term : List Char}

/-- The parse of characters leaves the image alone. -/
theorem nextc_image (h : nextc src q = some (c, src', q')) : q'.image = q.image := by
  obtain ⟨r, hr, hrc⟩ := Option.bind_eq_some_iff.mp h
  refine iterate_invariant (fun r => r.2.image = q.image) (fun r => ∀ v, r = some v → v.2.2.image = q.image)
    ?_ ?_ rfl hr _ hrc
  · rintro ⟨src, q₁⟩ r hq hround
    simp only [nextcBody] at hround
    split at hround
    · cases hround
    · split_ifs at hround <;> obtain rfl := Sum.inl.inj hround <;> exact hq
  · rintro ⟨src, q₁⟩ r hq hleave v hv
    simp only [nextcBody] at hleave
    split at hleave
    · obtain rfl := Sum.inr.inj hleave
      cases hv
    · split_ifs at hleave
      · obtain rfl := Sum.inr.inj hleave
        obtain rfl := Option.some.inj hv
        exact hq
      · obtain rfl := Sum.inr.inj hleave
        obtain rfl := Option.some.inj hv
        exact hq

theorem expect_image {ch : Char} (h : expect ch src q = some (src', q')) : q'.image = q.image := by
  obtain ⟨⟨c, src₁, q₁⟩, hnext, hresult⟩ := Option.map_eq_some_iff.mp h
  obtain ⟨rfl, rfl⟩ := Prod.mk.inj hresult
  have himage := nextc_image hnext
  split_ifs
  · exact himage
  · exact himage

theorem peekc_image (h : peekc src q = some (c, src', q')) : q'.image = q.image := by
  obtain ⟨⟨c₁, src₁, q₁⟩, hnext, hresult⟩ := Option.bind_eq_some_iff.mp h
  obtain ⟨src₂, -, hpair⟩ := Option.map_eq_some_iff.mp hresult
  obtain ⟨rfl, rfl⟩ := Prod.mk.inj (Prod.mk.inj hpair).2
  exact nextc_image hnext

theorem getstr_image (h : getstr term src q = some (str, src', q')) : q'.image = q.image := by
  obtain ⟨⟨c₁, src₁, q₁⟩, hnext, hresult⟩ := Option.bind_eq_some_iff.mp h
  obtain ⟨r, -, hpair⟩ := Option.map_eq_some_iff.mp hresult
  obtain ⟨rfl, rfl⟩ := Prod.mk.inj (Prod.mk.inj hpair).2
  exact nextc_image hnext

theorem parseField_true (h : parseField type true dir src q = some (dir', src', q')) :
    q'.image = q.image ∧ dir'.par = dir.par := by
  simp only [parseField, if_true, Option.bind_eq_bind, Option.bind_some] at h
  obtain ⟨⟨left, src₂, q₂⟩, hleft, h⟩ := Option.bind_eq_some_iff.mp h
  obtain ⟨⟨src₃, q₃⟩, hequal, h⟩ := Option.bind_eq_some_iff.mp h
  obtain ⟨⟨right, src₄, q₄⟩, hright, h⟩ := Option.bind_eq_some_iff.mp h
  have hall : q₄.image = q.image := by
    rw [getstr_image hright, expect_image hequal, getstr_image hleft]
  split at h
  next d hset =>
    obtain ⟨rfl, hrest⟩ := Prod.mk.inj (Option.some.inj h)
    obtain ⟨-, rfl⟩ := Prod.mk.inj hrest
    obtain ⟨i, -, rfl⟩ := Option.map_eq_some_iff.mp hset
    exact ⟨hall, rfl⟩
  next =>
    obtain ⟨rfl, hrest⟩ := Prod.mk.inj (Option.some.inj h)
    obtain ⟨-, rfl⟩ := Prod.mk.inj hrest
    exact ⟨hall, rfl⟩

/-- A field is stored in the directive, and nowhere else. -/
theorem parseField_image (h : parseField type first dir src q = some (dir', src', q')) :
    q'.image = q.image ∧ dir'.par = dir.par := by
  cases first with
  | false =>
    rw [parseField_comma] at h
    obtain ⟨⟨src₁, q₁⟩, hcomma, h⟩ := Option.bind_eq_some_iff.mp h
    obtain ⟨himage, hpar⟩ := parseField_true h
    exact ⟨himage.trans (expect_image hcomma), hpar⟩
  | true => exact parseField_true h

/-- So does the loop over the fields, which leaves the parent too. -/
theorem fieldLoop_image {n : Nat}
    (h : (iterate (fieldBody type) n (dir, src, q, first)).join = some (dir', src', q')) :
    q'.image = q.image ∧ dir'.par = dir.par := by
  obtain ⟨r, hr, hrv⟩ := Option.bind_eq_some_iff.mp h
  refine iterate_invariant (fun r => r.2.2.1.image = q.image ∧ r.1.par = dir.par)
    (fun r => ∀ v, r = some v → v.2.2.image = q.image ∧ v.1.par = dir.par) ?_ ?_ ⟨rfl, rfl⟩ hr _ hrv
  · rintro ⟨dir₁, src₁, q₁, first₁⟩ r hq hround
    simp only [fieldBody] at hround
    split at hround
    · cases hround
    · next c src₂ q₂ hpeek =>
      split_ifs at hround
      split at hround
      · cases hround
      · next dir₃ src₃ q₃ hfield =>
        obtain rfl := Sum.inl.inj hround
        obtain ⟨himage, hpar⟩ := parseField_image hfield
        exact ⟨(himage.trans (peekc_image hpeek)).trans hq.1, hpar.trans hq.2⟩
  · rintro ⟨dir₁, src₁, q₁, first₁⟩ r hq hleave v hv
    simp only [fieldBody] at hleave
    split at hleave
    · obtain rfl := Sum.inr.inj hleave
      cases hv
    · next c src₂ q₂ hpeek =>
      split_ifs at hleave
      · obtain rfl := Sum.inr.inj hleave
        obtain rfl := Option.some.inj hv
        exact ⟨(peekc_image hpeek).trans hq.1, hq.2⟩
      · split at hleave
        · obtain rfl := Sum.inr.inj hleave
          cases hv
        · cases hleave

end Reading

/-- What is left by going over directives of the directory `d`, and over what is inside of them. -/
structure Runs (H : Host) (s s' : Image) (ts ts' : List Ptr) (d : Ptr) : Prop where
  trace  : ∃ dirs, Trace (Confirms H) s dirs s'
  tidy   : Tidy s' ts'
  sub    : ∀ n ∈ ts, n ∈ ts'
  leaves : Leaves s s' ts d

/-- Nothing has run at first. -/
theorem Runs.refl (H : Host) (h : Tidy s ts) (d : Ptr) : Runs H s s ts ts d :=
  ⟨⟨[], .nil s⟩, h, fun _ hn => hn, .refl s ts d⟩

/-- Two runs after one another. -/
theorem Runs.trans (h : Runs H s s₁ ts ts₁ d) (h' : Runs H s₁ s' ts₁ ts' d) : Runs H s s' ts ts' d := by
  obtain ⟨dirs, hdirs⟩ := h.trace
  obtain ⟨dirs', hdirs'⟩ := h'.trace
  exact ⟨⟨dirs ++ dirs', trace_append.mpr ⟨s₁, hdirs, hdirs'⟩⟩, h'.tidy, fun n hn => h'.sub n (h.sub n hn),
    h.leaves.trans (h'.leaves.mono h.sub)⟩

/-- A function that goes over the directives of a source. -/
def Goes (H : Host) (sub : Source → Ptr → Parser → Option Parser) : Prop :=
  ∀ (src : Source) (d : Ptr) (q q' : Parser) (ts : List Ptr), Tidy q.image ts → d ∈ ts →
    sub src d q = some q' → ∃ ts', Runs H q.image q'.image ts ts' d

/-- What the contents of the new directory `x` leave. -/
theorem inside_runs (hsub : Goes H sub) (h : Tidy q.image ts) (hx : x ∈ ts)
    (hinside : dir.inside sub x q = some q') : ∃ ts', Runs H q.image q'.image ts ts' x := by
  rw [Directive.inside] at hinside
  split at hinside
  · exact hsub _ x q q' ts h hx hinside
  · obtain rfl := Option.some.inj hinside
    exact ⟨ts, .refl H h x⟩

/-- A confirmed directive is a step of the run, if the parse of its contents is one. -/
theorem confirmDirective_runs (hsub : Goes H sub) (h : Tidy q.image ts)
    (hconfirm : confirmDirective H k sub dir q = some (b, q')) :
    ∃ ts', Runs H q.image q'.image ts ts' dir.par := by
  rcases confirm_cases h hconfirm with ⟨-, rfl, -⟩ | ⟨-, q₁, x, hinside, hone, hcase⟩
  · exact ⟨ts, .refl H h dir.par⟩
  · have hstep : Trace (Confirms H) q.image [dir] q₁.image := .cons hone (.nil _)
    rcases hcase with ⟨hun, himage⟩ | ⟨-, ts₁, hentered⟩
    · rw [Directive.inside, hun.1] at hinside
      obtain rfl := Option.some.inj hinside
      rw [himage] at hstep ⊢
      exact ⟨ts, ⟨[dir], hstep⟩, h, fun _ hn => hn, .refl _ ts _⟩
    · obtain ⟨name, -, hmade⟩ := hentered.made
      obtain ⟨ts', hruns⟩ := inside_runs hsub hentered.tidy hmade.mem hinside
      obtain ⟨dirs, hdirs⟩ := hruns.trace
      refine ⟨ts', ⟨dir :: dirs, trace_append.mpr ⟨_, hstep, hdirs⟩⟩, hruns.tidy, fun n hn =>
        hruns.sub n (hmade.sub n hn), hmade.leaves.trans ?_⟩
      exact (hruns.leaves.mono hmade.sub).outside hmade.new dir.par

/-- So is one round of the loop over the directives. -/
theorem parseNext_runs (hsub : Goes H sub) (h : Tidy q.image ts) {src src' : Source}
    (hnext : parseNext H k sub src d q = some (src', q')) : ∃ ts', Runs H q.image q'.image ts ts' d := by
  obtain ⟨⟨type, src₁, q₁⟩, htype, hnext⟩ := Option.bind_eq_some_iff.mp hnext
  obtain ⟨⟨src₂, q₂⟩, hcolon, hnext⟩ := Option.bind_eq_some_iff.mp hnext
  obtain ⟨⟨src₃, q₃⟩, hopen, hnext⟩ := Option.bind_eq_some_iff.mp hnext
  obtain ⟨dir, hdir, hnext⟩ := Option.bind_eq_some_iff.mp hnext
  obtain ⟨⟨dir', src₄, q₄⟩, hloop, hnext⟩ := Option.bind_eq_some_iff.mp hnext
  obtain ⟨⟨b, q₅⟩, hconfirm, hclose⟩ := Option.bind_eq_some_iff.mp hnext
  obtain ⟨himage, hpar⟩ := fieldLoop_image hloop
  obtain ⟨cls, -, rfl⟩ := Option.map_eq_some_iff.mp hdir
  have hbefore : q₄.image = q.image := by
    rw [himage, expect_image hopen, expect_image hcolon, nextc_image htype]
  have hafter : q'.image = q₅.image := by
    rw [expect_image hclose]
    split_ifs <;> rfl
  rw [← hbefore, hafter]
  obtain ⟨ts', hruns⟩ := confirmDirective_runs hsub (hbefore.symm ▸ h) hconfirm
  rw [hpar] at hruns
  exact ⟨ts', hruns⟩

/-- The whole loop runs as described, by induction on the bound. -/
theorem parseDirectory_runs (H : Host) (k depth : Nat) : Goes H (parseDirectory H k depth) := by
  induction depth with
  | zero =>
    intro src d q q' ts _ _ hparse
    cases hparse
  | succ depth ih =>
    intro src d q q' ts h hd hparse
    obtain ⟨r, hr, hrv⟩ := Option.bind_eq_some_iff.mp hparse
    refine iterate_invariant (fun r => ∃ ts', Runs H q.image r.2.image ts ts' d)
      (fun r => ∀ v, r = some v → ∃ ts', Runs H q.image v.image ts ts' d) ?_ ?_ ⟨ts, .refl H h d⟩ hr _ hrv
    · rintro ⟨src₁, q₁⟩ ⟨src₂, q₂⟩ ⟨ts₁, hruns⟩ hround
      simp only [directoryBody] at hround
      split at hround
      · cases hround
      · next c src₃ q₃ hpeek =>
        split_ifs at hround
        split at hround
        · cases hround
        · next v hnext =>
          obtain rfl := Sum.inl.inj hround
          have htidy : Tidy q₃.image ts₁ := (peekc_image hpeek).symm ▸ hruns.tidy
          obtain ⟨ts₂, hruns'⟩ := parseNext_runs ih htidy hnext
          rw [peekc_image hpeek] at hruns'
          exact ⟨ts₂, hruns.trans hruns'⟩
    · rintro ⟨src₁, q₁⟩ r ⟨ts₁, hruns⟩ hleave v hv
      simp only [directoryBody] at hleave
      split at hleave
      · obtain rfl := Sum.inr.inj hleave
        cases hv
      · next c src₃ q₃ hpeek =>
        split_ifs at hleave
        · obtain rfl := Sum.inr.inj hleave
          obtain rfl := Option.some.inj hv
          rw [peekc_image hpeek]
          exact ⟨ts₁, hruns⟩
        · split at hleave
          · obtain rfl := Sum.inr.inj hleave
            cases hv
          · cases hleave

-- ---------------------------------------------------------------------------
-- parse_fsd
-- ---------------------------------------------------------------------------

/-- `parse_fsd` up to `parse_directory`, with the root directory. -/
def startFsd (H : Host) (k bs sb rperm : Nat) (rowner : Option CStr) (s : Image) : Option (Image × Ptr) := do
  let s : Image := { s with
    nodes := [], metas := [], blockSize := bs, nextLba := sb, freeData := NULL, freeMeta := NULL,
    strtbl := NULL }
  let (fs, m) ← newMeta H.toEnv NULL s.toState
  let s : Image := { s with toState := fs, firstMeta := m }
  let (s, root) ← newDir H k none NULL s
  let s : Image := { s with root := root }.setCommon root fun v => { v with perm := rperm % 0x10000 }
  let (s, owner) ← getString H k rowner s
  some (s.setCommon root fun v => { v with owner := owner }, root)

/-- `parse_fsd` makes an empty root directory first. -/
theorem parseFsd_start (H : Host) (k bs sb rperm : Nat) (rowner : Option CStr) (text : List UInt8)
    (s : Image) :
    parseFsd H k bs sb rperm rowner text s = (startFsd H k bs sb rperm rowner s).bind fun r =>
      parseDirectory H k (text.length + 1) (sourceFile text) r.2 ⟨r.1, 1, []⟩ := by
  simp only [parseFsd, startFsd, Option.bind_eq_bind, Option.bind_assoc, Option.bind_some]

/-- This image is in order. -/
theorem startFsd_tidy {bs sb rperm : Nat} {rowner : Option CStr}
    (hstart : startFsd H k bs sb rperm rowner s = some (s', x)) : ∃ ts, Tidy s' ts ∧ x ∈ ts := by
  rw [startFsd] at hstart
  obtain ⟨⟨fs, m⟩, hmeta, hstart⟩ := Option.bind_eq_some_iff.mp hstart
  obtain ⟨⟨s₁, root⟩, hroot, hstart⟩ := Option.bind_eq_some_iff.mp hstart
  obtain ⟨⟨s₂, owner⟩, hget, hresult⟩ := Option.bind_eq_some_iff.mp hstart
  obtain ⟨rfl, rfl⟩ := Prod.mk.inj (Option.some.inj hresult)
  obtain ⟨fr, hwired⟩ := newMeta_wired hmeta rfl rfl
  let s₀ : Image := { s with toState := fs, firstMeta := m, freeData := NULL, strtbl := NULL }
  have hsound : Sound s₀ [] := by
    refine ⟨⟨[fr], [], hwired⟩, [], fun sl hsl => ?_, fun _ hn => hn⟩
    cases sl with
    | root => exact .inl rfl
    | left p => exact absurd (hsl p rfl) List.not_mem_nil
    | right p => exact absurd (hsl p rfl) List.not_mem_nil
  have hnone : Tidy s₀ [] := ⟨hsound, fun n hn => absurd hn List.not_mem_nil⟩
  obtain ⟨ts₁, hmade₁, htype, hdata⟩ := newDir_made hsound hroot
  have hplace : Made s₀ { s₁ with root := root } [] ts₁ NULL root none := by
    refine hmade₁.leave (hmade₁.sound.store rfl rfl rfl) (fun _ hn => hn) (fun d => ?_) rfl
      fun _ hn => .inl hn
    exact ⟨fun _ _ => rfl, fun _ _ => ⟨_, rfl, fun _ => rfl⟩, fun _ _ => rfl, fun _ _ => rfl⟩
  have hperm := hplace.setEntry (fun v => { v with perm := rperm % 0x10000 }) fun _ => ⟨rfl, rfl⟩
  obtain ⟨ts₂, hst⟩ := getString_stores hperm.sound hget
  have hmade₂ := (hperm.leave hst.sound hst.sub hst.leaves hst.common fun y hy => (hst.new y hy).imp_right
    fun htype => by rw [htype]; decide).setEntry (fun v => { v with owner := owner }) fun _ => ⟨rfl, rfl⟩
  refine ⟨ts₂, hmade₂.tidy hnone fun _ => ?_, hmade₂.mem⟩
  rw [setCommon_self, hst.common, setCommon_self]
  exact hdata

/-- The images while a description is parsed: the directives `dirs` were confirmed. -/
def Described (H : Host) (bs sb rperm : Nat) (rowner : Option CStr) (s : Image)
    (dirs : List Directive) (s' : Image) :
    Prop :=
  ∃ k s₀ root, startFsd H k bs sb rperm rowner s = some (s₀, root) ∧ Trace (Confirms H) s₀ dirs s'

/-- What `parse_fsd` returned was made by one directive after another. -/
theorem parseFsd_described {bs sb rperm : Nat} {rowner : Option CStr} {text : List UInt8}
    (hparse : parseFsd H k bs sb rperm rowner text s = some q) :
    ∃ dirs, Described H bs sb rperm rowner s dirs q.image := by
  rw [parseFsd_start] at hparse
  obtain ⟨⟨s₀, root⟩, hstart, hparse⟩ := Option.bind_eq_some_iff.mp hparse
  obtain ⟨ts, htidy, hroot⟩ := startFsd_tidy hstart
  obtain ⟨ts', hruns⟩ := parseDirectory_runs H k _ _ _ _ _ ts htidy hroot hparse
  obtain ⟨dirs, hdirs⟩ := hruns.trace
  exact ⟨dirs, k, s₀, root, hstart, hdirs⟩

/-- One step of a run. -/
theorem confirms_tidy (h : Tidy s ts) (hconfirm : Confirms H s dir s') :
    ∃ ts', Tidy s' ts' ∧ (∀ n ∈ ts, n ∈ ts') ∧ Leaves s s' ts dir.par := by
  obtain ⟨k, q, b, q', rfl, hconfirm, rfl⟩ := hconfirm
  have hsub : Goes H fun _ _ q => some q := by
    intro src d q q' ts h _ hq
    obtain rfl := Option.some.inj hq
    exact ⟨ts, .refl H h d⟩
  obtain ⟨ts', hruns⟩ := confirmDirective_runs hsub h hconfirm
  exact ⟨ts', hruns.tidy, hruns.sub, hruns.leaves⟩

/-- So is each one that a run of directives comes to, where no node changes its type. -/
theorem trace_tidy {dirs : List Directive} (h : Tidy s ts) (hrun : Trace (Confirms H) s dirs s') :
    ∃ ts', Tidy s' ts' ∧ (∀ n ∈ ts, n ∈ ts') ∧
      ∀ n ∈ ts, (s'.node n).type = (s.node n).type ∧ s'.block n = s.block n := by
  induction hrun generalizing ts with
  | nil s => exact ⟨ts, h, fun _ hn => hn, fun _ _ => ⟨rfl, rfl⟩⟩
  | cons hstep _ ih =>
    obtain ⟨ts₁, htidy₁, hsub₁, hleaves⟩ := confirms_tidy h hstep
    obtain ⟨ts', htidy, hsub, hkept⟩ := ih htidy₁
    refine ⟨ts', htidy, fun n hn => hsub n (hsub₁ n hn), fun n hn => ?_⟩
    obtain ⟨htype, hblock⟩ := hkept n (hsub₁ n hn)
    exact ⟨htype.trans (hleaves.type n hn), hblock.trans (hleaves.block n hn)⟩

end Text

end Frosk.Builder
