import Mathlib.Tactic
import Frosk.Builder.Blocks
import Frosk.Builder.Entries

/-!
# The image builder: the table of strings

`Laid` is the invariant of the builder while all nodes fit in the first metadata block:
what the allocator gave out, which of these nodes are complete, and which strings the
table has. `newNode_spec` and `getString_spec` say what `new_node` and `get_string` make of
it: a string takes room only if it is not in the table yet.
-/

namespace Frosk.Builder

open Lib Fs

-- ---------------------------------------------------------------------------
-- strcmp of the host
-- ---------------------------------------------------------------------------

/-- The place of a string in the order of the host, the terminator included. -/
def hostKey (str : CStr) : List Nat := str.chars.map UInt8.toNat ++ [0]

/-- A string is given by its place in the order. -/
theorem hostKey_inj {a b : CStr} (h : hostKey a = hostKey b) : a = b := by
  have hmap := List.append_cancel_right h
  have hchars := List.map_injective_iff.mpr (fun _ _ => UInt8.toNat_inj.mp) hmap
  cases a
  cases b
  obtain rfl := hchars
  rfl

theorem hostStrcmpChars_sign {a b : List UInt8} (ha : 0 ∉ a) (hb : 0 ∉ b) :
    (hostStrcmpChars a b < 0 ↔ a.map UInt8.toNat ++ [0] < b.map UInt8.toNat ++ [0]) ∧
    (0 < hostStrcmpChars a b ↔ b.map UInt8.toNat ++ [0] < a.map UInt8.toNat ++ [0]) := by
  have hpos : ∀ {x : UInt8}, x ≠ 0 → 0 < x.toNat := by
    intro x hx
    exact Nat.pos_of_ne_zero fun h => hx (UInt8.toNat_inj.mp h)
  induction a generalizing b with
  | nil =>
    cases b with
    | nil => simp [hostStrcmpChars]
    | cons y b =>
      have hy := hpos fun h => hb (List.mem_cons.mpr (.inl h.symm))
      simp only [hostStrcmpChars, List.map_cons, List.map_nil, List.nil_append, List.cons_append,
        List.cons_lt_cons_iff]
      constructor <;> constructor <;> intro h <;> omega
  | cons x a ih =>
    have hx := hpos fun h => ha (List.mem_cons.mpr (.inl h.symm))
    cases b with
    | nil =>
      simp only [hostStrcmpChars, List.map_cons, List.map_nil, List.nil_append, List.cons_append,
        List.cons_lt_cons_iff]
      constructor <;> constructor <;> intro h <;> omega
    | cons y b =>
      simp only [List.mem_cons, not_or] at ha hb
      obtain ⟨hlt, hgt⟩ := ih ha.2 hb.2
      simp only [hostStrcmpChars, List.map_cons, List.cons_append, List.cons_lt_cons_iff]
      by_cases hxy : x = y
      · subst hxy
        simp [hlt, hgt]
      · have hne : x.toNat ≠ y.toNat := fun h => hxy (UInt8.toNat_inj.mp h)
        rw [if_pos hxy]
        constructor <;> constructor <;> intro h <;> omega

/-- `strcmp` of the host compares the places. -/
theorem hostStrcmp_sign (a b : CStr) :
    (hostStrcmp a b < 0 ↔ hostKey a < hostKey b) ∧ (0 < hostStrcmp a b ↔ hostKey b < hostKey a) :=
  hostStrcmpChars_sign a.clean b.clean

-- ---------------------------------------------------------------------------
-- The invariant
-- ---------------------------------------------------------------------------

/-- The bytes that the node of a string takes. -/
def stringRoom (str : CStr) : Nat :=
  align (sizeofString + (str.chars.length + 1) + fnodeAddSize) 0x10

/-- The blocks that the contents of a file take. -/
def blocksFor (size : Nat) : Nat := size / 0x1000 + 1

/-- A complete node of each kind, with what `write_node` needs of it. -/
inductive Formed (H : Host) (s : Image) (n : Ptr) : Prop
  | common (size : (s.node n).size = 32) (type : (s.node n).type = .FILE ∨
      (s.node n).type = .DIRECTORY ∨ (s.node n).type = .INDIRECT)
  | string (size : (s.node n).size = stringRoom (s.string n).value)
      (type : (s.node n).type = .STRING) (short : (s.string n).value.chars.length < 1999)
      (length : (s.string n).size = (s.string n).value.chars.length + 1)
  | block (size : (s.node n).size = 32) (type : (s.node n).type = .BLOCK) (name : CStr)
      (bytes : List UInt8) (filename : (s.block n).filename = some name)
      (file : H.file name = some bytes) (length : (s.block n).size = bytes.length)
      (next : (s.block n).next = NULL) (low : 3 ≤ (s.block n).lba)
      (high : (s.block n).lba + blocksFor (s.block n).size ≤ s.nextLba)

/-- The table is the search tree `t`, and has the strings `K`. -/
structure Table (s : Image) (ds : List Ptr) (par : Ptr → Ptr) (t : SearchTree Ptr)
    (K : Finset CStr) : Prop where
  shape  : ({ s.links with parent := par }).Shape NULL s.strtbl NULL t
  sorted : t.Sorted fun n => hostKey (s.string n).value
  mem    : ∀ n ∈ t.toList, n ∈ ds ∧ (s.node n).type = .STRING
  keys   : ∀ str, str ∈ K ↔ ∃ n ∈ t.toList, (s.string n).value = str

/-- The nodes `ds` are complete. -/
structure Content (H : Host) (s : Image) (ds : List Ptr) (K : Finset CStr) : Prop where
  nodup  : ds.Nodup
  table  : ∃ par t, Table s ds par t K
  formed : ∀ n ∈ ds, Formed H s n
  apart  : ds.Pairwise fun a b => (s.node a).type = .BLOCK → (s.node b).type = .BLOCK →
    (s.block a).lba + blocksFor (s.block a).size ≤ (s.block b).lba

/-- The nodes `ns` of the first block are given out, and `rem` bytes of it are left. -/
structure Laid (H : Host) (s : Image) (m : Ptr) (ns ds : List Ptr) (rem : Nat) (K : Finset CStr) :
    Prop where
  bump    : ∃ f, Bump .default s.toState m ns f rem
  first   : s.firstMeta = m
  lba     : (s.metaAt m).lba = 1
  given   : ∀ n ∈ ds, n ∈ ns
  content : Content H s ds K

/-- What no function changes of the nodes `ns`, but the contents of the directory `d`. -/
structure Keeps (s s' : Image) (ns : List Ptr) (d : Ptr) : Prop where
  node   : ∀ n ∈ ns, (s'.node n).type = (s.node n).type ∧ (s'.node n).size = (s.node n).size ∧
    (s'.node n).ptr = (s.node n).ptr
  common : ∀ n ∈ ns, ∃ data, s'.common n = { s.common n with data := data } ∧
    (n ≠ d → data = (s.common n).data)
  string : ∀ n ∈ ns, (s'.string n).value = (s.string n).value ∧ (s'.string n).size = (s.string n).size
  block  : ∀ n ∈ ns, s'.block n = s.block n
  lba    : s.nextLba ≤ s'.nextLba
  root   : s'.root = s.root

section Keeping

variable {H : Host} {s s' s₁ : Image} {m d : Ptr} {ns ns' ds : List Ptr} {rem : Nat}
  {K K' : Finset CStr}

/-- Nothing is changed by nothing. -/
theorem Keeps.refl (s : Image) (ns : List Ptr) (d : Ptr) : Keeps s s ns d where
  node _ _ := ⟨rfl, rfl, rfl⟩
  common _ _ := ⟨_, rfl, fun _ => rfl⟩
  string _ _ := ⟨rfl, rfl⟩
  block _ _ := rfl
  lba := le_rfl
  root := rfl

/-- Two steps that keep the nodes. -/
theorem Keeps.trans (h : Keeps s s₁ ns d) (h' : Keeps s₁ s' ns d) : Keeps s s' ns d where
  node n hn := by
    obtain ⟨h₁, h₂, h₃⟩ := h.node n hn
    obtain ⟨h₁', h₂', h₃'⟩ := h'.node n hn
    exact ⟨h₁'.trans h₁, h₂'.trans h₂, h₃'.trans h₃⟩
  common n hn := by
    obtain ⟨data, h₁, h₂⟩ := h.common n hn
    obtain ⟨data', h₁', h₂'⟩ := h'.common n hn
    refine ⟨data', by rw [h₁', h₁], fun hd => (h₂' hd).trans ?_⟩
    rw [h₁]
    exact h₂ hd
  string n hn := by
    obtain ⟨h₁, h₂⟩ := h.string n hn
    obtain ⟨h₁', h₂'⟩ := h'.string n hn
    exact ⟨h₁'.trans h₁, h₂'.trans h₂⟩
  block n hn := (h'.block n hn).trans (h.block n hn)
  lba := h.lba.trans h'.lba
  root := h'.root.trans h.root

/-- The same of fewer nodes. -/
theorem Keeps.mono (h : Keeps s s' ns' d) (hsub : ∀ n ∈ ns, n ∈ ns') : Keeps s s' ns d where
  node n hn := h.node n (hsub n hn)
  common n hn := h.common n (hsub n hn)
  string n hn := h.string n (hsub n hn)
  block n hn := h.block n (hsub n hn)
  lba := h.lba
  root := h.root

/-- Where no directory changes, none but `d` does. -/
theorem Keeps.but (h : Keeps s s' ns NULL) (hnull : NULL ∉ ns) (d : Ptr) : Keeps s s' ns d where
  node := h.node
  common n hn := by
    obtain ⟨data, h₁, h₂⟩ := h.common n hn
    exact ⟨data, h₁, fun _ => h₂ fun hz => hnull (hz ▸ hn)⟩
  string := h.string
  block := h.block
  lba := h.lba
  root := h.root

/-- A node that is well formed stays so. -/
theorem Formed.keeps {n : Ptr} (h : Formed H s n) (hk : Keeps s s' ns d) (hn : n ∈ ns) :
    Formed H s' n := by
  obtain ⟨htype, hsize, -⟩ := hk.node n hn
  obtain ⟨hvalue, hlength⟩ := hk.string n hn
  have hblock := hk.block n hn
  cases h with
  | common size type => exact .common (hsize.trans size) (by rwa [htype])
  | string size type short length =>
    exact .string (by rw [hsize, hvalue, size]) (htype.trans type) (by rwa [hvalue])
      (by rw [hlength, hvalue, length])
  | block size type name bytes filename file length next low high =>
    exact .block (hsize.trans size) (htype.trans type) name bytes (by rw [hblock, filename]) file
      (by rw [hblock, length]) (by rw [hblock, next]) (by rwa [hblock])
      (by rw [hblock]; exact high.trans hk.lba)

/-- The table is the same as long as its nodes and links are. -/
theorem Table.keeps {par : Ptr → Ptr} {t : SearchTree Ptr} (h : Table s ds par t K)
    (hk : Keeps s s' ds d) (hlinks : s'.links = s.links) : Table s' ds par t K := by
  have hvalue : ∀ n ∈ t.toList, (s'.string n).value = (s.string n).value :=
    fun n hn => (hk.string n (h.mem n hn).1).1
  refine ⟨?_, ?_, fun n hn => ⟨(h.mem n hn).1, ?_⟩, fun str => ?_⟩
  · have hroot : s'.strtbl = s.strtbl := congrArg Links.root hlinks
    rw [hlinks, hroot]
    exact h.shape
  · exact SearchTree.sorted_congr (fun n hn => congrArg hostKey (hvalue n hn)) h.sorted
  · rw [(hk.node n (h.mem n hn).1).1]
    exact (h.mem n hn).2
  · rw [h.keys]
    constructor
    · rintro ⟨n, hn, rfl⟩
      exact ⟨n, hn, hvalue n hn⟩
    · rintro ⟨n, hn, rfl⟩
      exact ⟨n, hn, (hvalue n hn).symm⟩

/-- So is all that is in the image. -/
theorem Content.keeps (h : Content H s ds K) (hk : Keeps s s' ds d) (hlinks : s'.links = s.links) :
    Content H s' ds K := by
  obtain ⟨par, t, htable⟩ := h.table
  refine ⟨h.nodup, ⟨par, t, htable.keeps hk hlinks⟩, fun n hn => (h.formed n hn).keeps hk hn, ?_⟩
  refine List.Pairwise.imp_of_mem ?_ h.apart
  intro a b ha hb hab
  rw [(hk.node a ha).1, (hk.node b hb).1, hk.block a ha, hk.block b hb]
  exact hab

-- ---------------------------------------------------------------------------
-- new_node
-- ---------------------------------------------------------------------------

theorem Laid.given_ne_null (h : Laid H s m ns ds rem K) : NULL ∉ ns := by
  obtain ⟨f, hbump⟩ := h.bump
  exact fun hn => (hbump.ours NULL ((hbump.mem_iff NULL).mp (List.mem_append_left _ hn))).2 rfl

/-- What `new_node` gives while there is room. -/
structure Gets (H : Host) (s s' : Image) (m : Ptr) (ns ds : List Ptr) (rem sz : Nat)
    (K : Finset CStr) (n : Ptr) : Prop where
  laid  : Laid H s' m (ns ++ [n]) ds (rem - sz) K
  keeps : Keeps s s' ns NULL
  new   : n ∉ ns
  null  : n ≠ NULL
  size  : (s'.node n).size = sz
  rest  : s' = { s with toState := s'.toState }
  lba   : s'.nextLba = s.nextLba

/-- What `new_node` takes from the first block. -/
structure Allots (b : BlockSize) (s : Image) (st : State) (m : Ptr) (ns : List Ptr) (rem sz : Nat) (n : Ptr) :
    Prop where
  bump  : ∃ f, Bump b st m (ns ++ [n]) f (rem - sz)
  keeps : Keeps s { s with toState := st } ns NULL
  new   : n ∉ ns
  null  : n ≠ NULL
  size  : (st.node n).size = sz
  first : (st.metaAt m).lba = (s.metaAt m).lba
  lba   : st.nextLba = s.nextLba

/-- `new_node` returns, and changes the allocator only. -/
theorem newNode_allots {b : BlockSize} {f : Option Ptr} (h : Bump b s.toState m ns f rem) (H : Host)
    (size : Nat)
    (hle : align (size + fnodeAddSize) b.entry ≤ rem) :
    ∃ st n, Settles (fun k => s.newNode H k size) ({ s with toState := st }, n) ∧
      Allots b s st m ns rem (align (size + fnodeAddSize) b.entry) n := by
  have hal : s.toState.aligned size = align (size + fnodeAddSize) b.entry :=
    aligned_eq h (hle.trans h.rem_le)
  obtain ⟨st, n, hnode, hnull, hcut⟩ := h.newNodeh_fits (E := H.toEnv) (newBranch H.toEnv 1) size
    (hal ▸ align_pos _ b.entry_pos) (hal ▸ align_mod _ _) (hal.trans_le hle) 0
  obtain ⟨f', hbump⟩ := hcut.bump
  refine ⟨st, n, ⟨1, fun k hk => ?_⟩, ⟨f', hal ▸ hbump⟩, ?_, ?_, hnull, hcut.size.trans hal,
    hcut.lba.2, hcut.lba.1⟩
  · simp only [Image.newNode]
    rw [below_newNode hk size s.toState _ hnode]
    rfl
  · refine ⟨fun y hy => ?_, fun _ _ => ⟨_, rfl, fun _ => rfl⟩, fun _ _ => ⟨rfl, rfl⟩, fun _ _ => rfl,
      hcut.lba.1.ge, rfl⟩
    obtain ⟨next, hkept⟩ := hcut.kept y hy
    rw [hkept]
    exact ⟨rfl, rfl, rfl⟩
  · intro hn
    have hnd := (List.nodup_append.mp hbump.nodup).1
    exact (List.nodup_append.mp hnd).2.2 n hn n (by simp) rfl

/-- `new_node` gives a node that is not in use, as long as there is room. -/
theorem newNode_spec (h : Laid H s m ns ds rem K) (size : Nat)
    (hle : align (size + fnodeAddSize) 0x10 ≤ rem) :
    ∃ s' n, Settles (fun k => s.newNode H k size) (s', n) ∧
      Gets H s s' m ns ds rem (align (size + fnodeAddSize) 0x10) K n := by
  obtain ⟨f, hbump⟩ := h.bump
  obtain ⟨st, n, hrun, hallots⟩ := newNode_allots hbump H size hle
  refine ⟨_, n, hrun, ?_, hallots.keeps, hallots.new, hallots.null, hallots.size, rfl, hallots.lba⟩
  exact ⟨hallots.bump, h.first, hallots.first.trans h.lba, fun y hy => List.mem_append_left _ (h.given y hy),
    h.content.keeps (hallots.keeps.mono h.given) rfl⟩

-- ---------------------------------------------------------------------------
-- get_string
-- ---------------------------------------------------------------------------

/-- A store into the table changes links only. -/
theorem storeString_string (s : Image) (n : Ptr) (sl : Slot Ptr) (x : Ptr) :
    ∃ l r, (s.storeString n sl).string x = { s.string x with left := l, right := r } := by
  cases sl with
  | root => exact ⟨_, _, rfl⟩
  | left p =>
    by_cases hx : x = p
    · subst hx
      exact ⟨n, _, Function.update_self ..⟩
    · exact ⟨_, _, Function.update_of_ne hx ..⟩
  | right p =>
    by_cases hx : x = p
    · subst hx
      exact ⟨_, n, Function.update_self ..⟩
    · exact ⟨_, _, Function.update_of_ne hx ..⟩

/-- A link of the table is no field of a node's own. -/
theorem storeString_rest (s : Image) (n : Ptr) (sl : Slot Ptr) :
    (s.storeString n sl).toState = s.toState ∧ (s.storeString n sl).common = s.common ∧
    (s.storeString n sl).block = s.block ∧ (s.storeString n sl).firstMeta = s.firstMeta ∧
    (s.storeString n sl).root = s.root := by
  cases sl <;> exact ⟨rfl, rfl, rfl, rfl, rfl⟩

/-- The links after a new string is stored. -/
theorem storeString_links (s : Image) (n lp : Ptr) (par : Ptr → Ptr) (length : Nat) (str : CStr)
    (sl : Slot Ptr) (hsl : sl.owner ≠ some n) :
    ({ ((s.setString n ⟨length, NULL, NULL, NULL, str⟩).storeString n sl).links with
      parent := Function.update par n lp } : Links Ptr) =
      (({ s.links with parent := par } : Links Ptr).create NULL n lp).store n sl := by
  have hown : ∀ p, sl.owner = some p → n ≠ p := fun p hp hnp => hsl (hnp ▸ hp)
  cases sl with
  | root =>
    refine Links.ext rfl (funext fun x => ?_) (funext fun x => ?_) rfl
    all_goals
      by_cases hx : x = n
      · simp [Image.links, Image.storeString, Image.setString, Links.store, Links.create, hx]
      · simp [Image.links, Image.storeString, Image.setString, Links.store, Links.create, hx]
  | left p =>
    have hp := hown p rfl
    refine Links.ext rfl (funext fun x => ?_) (funext fun x => ?_) rfl
    all_goals
      by_cases hx : x = p
      · simp [Image.links, Image.storeString, Image.setString, Links.store, Links.create, hx, hp.symm]
      · by_cases hxn : x = n
        · simp [Image.links, Image.storeString, Image.setString, Links.store, Links.create, hxn, hp]
        · simp [Image.links, Image.storeString, Image.setString, Links.store, Links.create, hx, hxn]
  | right p =>
    have hp := hown p rfl
    refine Links.ext rfl (funext fun x => ?_) (funext fun x => ?_) rfl
    all_goals
      by_cases hx : x = p
      · simp [Image.links, Image.storeString, Image.setString, Links.store, Links.create, hx, hp.symm]
      · by_cases hxn : x = n
        · simp [Image.links, Image.storeString, Image.setString, Links.store, Links.create, hxn, hp]
        · simp [Image.links, Image.storeString, Image.setString, Links.store, Links.create, hx, hxn]

/-- The room that the strings `S` take beside the strings `K`. -/
def need (S K : Finset CStr) : Nat := ∑ str ∈ S \ K, stringRoom str

/-- A sum over what is new, in two parts. -/
theorem sum_sdiff_union (S T K : Finset CStr) (w : CStr → Nat) :
    ∑ x ∈ (S ∪ T) \ K, w x = ∑ x ∈ S \ K, w x + ∑ x ∈ T \ (K ∪ S), w x := by
  have hparts : (S ∪ T) \ K = S \ K ∪ T \ (K ∪ S) := by
    ext x
    simp only [Finset.mem_sdiff, Finset.mem_union]
    tauto
  have hdisj : Disjoint (S \ K) (T \ (K ∪ S)) := by
    rw [Finset.disjoint_left]
    intro x hx hx'
    simp only [Finset.mem_sdiff, Finset.mem_union] at hx hx'
    tauto
  rw [hparts, Finset.sum_union hdisj]

/-- The room for the strings of two parts. -/
theorem need_union (S T K : Finset CStr) : need (S ∪ T) K = need S K + need T (K ∪ S) :=
  sum_sdiff_union S T K stringRoom

/-- A string of the table takes no room. -/
theorem need_of_mem {str : CStr} {K : Finset CStr} (h : str ∈ K) : need {str} K = 0 := by
  rw [need, Finset.sdiff_eq_empty_iff_subset.mpr (Finset.singleton_subset_iff.mpr h), Finset.sum_empty]

/-- A new one takes that of its node. -/
theorem need_of_not_mem {str : CStr} {K : Finset CStr} (h : str ∉ K) :
    need {str} K = stringRoom str := by
  rw [need, Finset.sdiff_eq_self_of_disjoint (Finset.disjoint_singleton_left.mpr h),
    Finset.sum_singleton]

/-- The node `x` is the string `str`. -/
structure IsString (s : Image) (ds : List Ptr) (x : Ptr) (str : CStr) : Prop where
  mem   : x ∈ ds
  type  : (s.node x).type = .STRING
  value : (s.string x).value = str

/-- What `get_string` leaves: the complete nodes `es` are new. -/
structure Interned (H : Host) (s s' : Image) (m : Ptr) (ns ds es : List Ptr) (rem rem' : Nat)
    (K : Finset CStr) (str : CStr) (x : Ptr) : Prop where
  laid   : Laid H s' m (ns ++ es) (ds ++ es) rem' (insert str K)
  room   : rem' + need {str} K = rem
  keeps  : Keeps s s' ns NULL
  common : s'.common = s.common
  lba    : s'.nextLba = s.nextLba
  string : IsString s' (ds ++ es) x str

/-- The descent to a string: it leaves at the string, or where a new one is put. -/
theorem Table.descends {par : Ptr → Ptr} {t : SearchTree Ptr} (h : Table s ds par t K) (str : CStr) :
    ∃ sl lp,
      Exits (descendBody s.links NULL fun n => hostStrcmp str (s.string n).value) (.root, NULL) (sl, lp) ∧
      s.links.load sl = (t.lookup (fun n => hostKey (s.string n).value) (hostKey str)).getD NULL ∧
      (sl = .root ∨ ∃ x ∈ t.toList, sl.owner = some x) ∧ ∀ q, q ≠ NULL → q ∉ t.toList →
        ((({ s.links with parent := par } : Links Ptr).create NULL q lp).store q sl).Shape NULL
          (((({ s.links with parent := par } : Links Ptr).create NULL q lp).store q sl).load .root) NULL
          (t.place (fun n => hostKey (s.string n).value) (hostKey str) q) := by
  have hnodup : t.toList.Nodup := by
    refine List.Pairwise.imp ?_ h.sorted
    intro a b hab heq
    rw [heq] at hab
    exact lt_irrefl _ hab
  obtain ⟨sl, lp, hexits, hload, hown, hshape⟩ := descend_spec
    (fun n => hostStrcmp str (s.string n).value) (fun n => hostKey (s.string n).value) (hostKey str) t
    .root NULL h.shape hnodup nofun fun x _ => hostStrcmp_sign str (s.string x).value
  rw [descendBody_parent] at hexits
  exact ⟨sl, lp, hexits, hload, hown.imp_left And.left, fun q hq hmem => hshape q hq hmem nofun⟩

/-- A string that is not in the table is not found. -/
theorem Table.lookup_none {par : Ptr → Ptr} {t : SearchTree Ptr} (h : Table s ds par t K) {str : CStr}
    (hstr : str ∉ K) : t.lookup (fun n => hostKey (s.string n).value) (hostKey str) = none := by
  rw [SearchTree.lookup_eq_none h.sorted]
  exact fun x hx heq => hstr ((h.keys str).mpr ⟨x, hx, hostKey_inj heq⟩)

/-- The table with one string more. -/
theorem Table.place {par : Ptr → Ptr} {t : SearchTree Ptr} (h : Table s ds par t K)
    (hk : Keeps s s' ds d) {str : CStr} (hstr : str ∉ K) {n lp : Ptr} (hn : n ∉ ds)
    (hshape : ({ s'.links with parent := Function.update par n lp }).Shape NULL s'.strtbl NULL
      (t.place (fun n => hostKey (s.string n).value) (hostKey str) n))
    (htype : (s'.node n).type = .STRING) (hvalue : (s'.string n).value = str) :
    Table s' (ds ++ [n]) (Function.update par n lp)
      (t.place (fun n => hostKey (s'.string n).value) (hostKey str) n) (insert str K) := by
  have hkey : ∀ x ∈ t.toList, hostKey (s'.string x).value = hostKey (s.string x).value :=
    fun x hx => congrArg hostKey (hk.string x (h.mem x hx).1).1
  have hsorted : t.Sorted fun n => hostKey (s'.string n).value :=
    SearchTree.sorted_congr hkey h.sorted
  have hnew : ∀ x ∈ t.toList, hostKey (s'.string x).value ≠ hostKey str := by
    intro x hx heq
    rw [hkey x hx] at heq
    exact hstr ((h.keys str).mpr ⟨x, hx, hostKey_inj heq⟩)
  have hnkey : hostKey (s'.string n).value = hostKey str := congrArg hostKey hvalue
  have hnone : t.lookup (fun n => hostKey (s'.string n).value) (hostKey str) = none :=
    (SearchTree.lookup_eq_none hsorted).mpr hnew
  have hleaf : t.LeafAt (fun n => hostKey (s'.string n).value) (hostKey str) := by
    rw [Links.leafAt_iff h.shape, hnone]
    exact nofun
  have hmem : ∀ x, x ∈ (t.place (fun n => hostKey (s'.string n).value) (hostKey str) n).toList ↔
      x = n ∨ x ∈ t.toList := by
    intro x
    constructor
    · intro hx
      exact (SearchTree.mem_place hsorted hx).imp_right fun hx => hx.1
    · rintro (rfl | hx)
      · exact SearchTree.self_mem_place
      · have hfound := (SearchTree.lookup_eq_some hsorted).mpr ⟨hx, rfl⟩
        rw [← SearchTree.lookup_place_ne hleaf hnkey (hnew x hx)] at hfound
        exact ((SearchTree.lookup_eq_some (SearchTree.sorted_place hsorted hnkey)).mp hfound).1
  refine ⟨?_, SearchTree.sorted_place hsorted hnkey, ?_, ?_⟩
  · rw [SearchTree.place_congr hkey]
    exact hshape
  · intro x hx
    rcases (hmem x).mp hx with rfl | hx
    · exact ⟨by simp, htype⟩
    · refine ⟨List.mem_append_left _ (h.mem x hx).1, ?_⟩
      rw [(hk.node x (h.mem x hx).1).1]
      exact (h.mem x hx).2
  · intro str'
    rw [Finset.mem_insert, h.keys]
    constructor
    · rintro (rfl | ⟨x, hx, rfl⟩)
      · exact ⟨n, (hmem n).mpr (.inl rfl), hvalue⟩
      · exact ⟨x, (hmem x).mpr (.inr hx), (hk.string x (h.mem x hx).1).1⟩
    · rintro ⟨x, hx, rfl⟩
      rcases (hmem x).mp hx with rfl | hx
      · exact .inl hvalue
      · exact .inr ⟨x, hx, (hk.string x (h.mem x hx).1).1.symm⟩

/-- One more node is complete. -/
theorem Content.snoc (h : Content H s ds K) (hk : Keeps s s' ds d) {n : Ptr} (hn : n ∉ ds)
    (htable : ∃ par t, Table s' (ds ++ [n]) par t K') (hformed : Formed H s' n)
    (hapart : (s'.node n).type = .BLOCK → s.nextLba ≤ (s'.block n).lba) :
    Content H s' (ds ++ [n]) K' := by
  refine ⟨?_, htable, ?_, ?_⟩
  · refine List.nodup_append.mpr ⟨h.nodup, List.nodup_singleton n, ?_⟩
    intro a ha b hb hab
    rw [hab, List.mem_singleton.mp hb] at ha
    exact hn ha
  · intro x hx
    rcases List.mem_append.mp hx with hx | hx
    · exact (h.formed x hx).keeps hk hx
    · exact List.mem_singleton.mp hx ▸ hformed
  · refine List.pairwise_append.mpr ⟨?_, List.pairwise_singleton _ _, ?_⟩
    · refine List.Pairwise.imp_of_mem ?_ h.apart
      intro a b ha hb hab
      rw [(hk.node a ha).1, (hk.node b hb).1, hk.block a ha, hk.block b hb]
      exact hab
    · intro a ha b hb
      obtain rfl := List.mem_singleton.mp hb
      intro hta htb
      rw [(hk.node a ha).1] at hta
      rw [hk.block a ha]
      cases h.formed a ha with
      | common size type => rw [hta] at type; simp at type
      | string size type => rw [hta] at type; cases type
      | block size type name bytes filename file length next low high => exact high.trans (hapart htb)

theorem setType_self (s : Image) (n : Ptr) (t : FnodeType) :
    (s.setType n t).node n = { s.node n with type := t } := Function.update_self ..

theorem setType_ne (s : Image) {n y : Ptr} (h : y ≠ n) (t : FnodeType) :
    (s.setType n t).node y = s.node y := Function.update_of_ne h ..

/-- What `get_string` stores in the node of a new string. -/
theorem store_keeps {n : Ptr} (hn : n ∉ ns) (v : StringNode) (sl : Slot Ptr) :
    Keeps s (((s.setType n .STRING).setString n v).storeString n sl) ns NULL := by
  obtain ⟨hstate, hcommon, hblock, -, hroot⟩ :=
    storeString_rest ((s.setType n .STRING).setString n v) n sl
  refine ⟨fun y hy => ?_, fun y hy => ⟨_, ?_, fun _ => rfl⟩, fun y hy => ?_, fun y hy => ?_, ?_, hroot⟩
  · have hne : y ≠ n := fun h => hn (h ▸ hy)
    rw [hstate]
    have hnode : ((s.setType n .STRING).setString n v).node y = s.node y := setType_ne s hne _
    rw [hnode]
    exact ⟨rfl, rfl, rfl⟩
  · rw [hcommon]
    rfl
  · have hne : y ≠ n := fun h => hn (h ▸ hy)
    obtain ⟨l, r, hstring⟩ := storeString_string ((s.setType n .STRING).setString n v) n sl y
    have hold : ((s.setType n .STRING).setString n v).string y = s.string y := Function.update_of_ne hne ..
    rw [hstring, hold]
    exact ⟨rfl, rfl⟩
  · rw [hblock]
    rfl
  · rw [hstate]
    exact le_rfl

/-- The node `n` is stored as the string `str`, at the slot. -/
def Image.putString (s : Image) (n : Ptr) (str : CStr) (sl : Slot Ptr) : Image :=
  ((s.setType n .STRING).setString n ⟨str.chars.length + 1, NULL, NULL, NULL, str⟩).storeString n sl

theorem putString_self (s : Image) (n : Ptr) (str : CStr) (sl : Slot Ptr) :
    (s.putString n str sl).node n = { s.node n with type := .STRING } ∧
      ((s.putString n str sl).string n).value = str ∧
      ((s.putString n str sl).string n).size = str.chars.length + 1 := by
  let v : StringNode := ⟨str.chars.length + 1, NULL, NULL, NULL, str⟩
  obtain ⟨hstate, -⟩ := storeString_rest ((s.setType n .STRING).setString n v) n sl
  obtain ⟨l, r, hstring⟩ := storeString_string ((s.setType n .STRING).setString n v) n sl n
  have hv : ((s.setType n .STRING).setString n v).string n = v := Function.update_self ..
  rw [show (s.putString n str sl).node = _ from congrArg State.node hstate,
    show (s.putString n str sl).string n = _ from hstring, hv]
  exact ⟨setType_self s n .STRING, rfl, rfl⟩

/-- The table after a new string is stored where the descent left. -/
theorem Table.stored {par : Ptr → Ptr} {t : SearchTree Ptr} (h : Table s ds par t K) (hk : Keeps s s₁ ds NULL)
    (hlinks : s₁.links = s.links) {str : CStr} (hstr : str ∉ K) {n : Ptr} (hn : n ∉ ds) (hnull : n ≠ NULL)
    {sl : Slot Ptr} {lp : Ptr} (hsl : sl = .root ∨ ∃ x ∈ t.toList, sl.owner = some x)
    (hshape : ∀ q, q ≠ NULL → q ∉ t.toList →
      ((({ s.links with parent := par } : Links Ptr).create NULL q lp).store q sl).Shape NULL
        (((({ s.links with parent := par } : Links Ptr).create NULL q lp).store q sl).load .root) NULL
        (t.place (fun n => hostKey (s.string n).value) (hostKey str) q)) :
    ∃ par t, Table (s₁.putString n str sl) (ds ++ [n]) par t (insert str K) := by
  have hown : sl.owner ≠ some n := by
    rcases hsl with rfl | ⟨x, hx, hown⟩
    · exact nofun
    · rw [hown]
      exact fun heq => hn (Option.some.inj heq ▸ (h.mem x hx).1)
  obtain ⟨hnode, hvalue, -⟩ := putString_self s₁ n str sl
  have hplaced := hshape n hnull fun hmem => hn (h.mem n hmem).1
  have hstored := storeString_links (s₁.setType n .STRING) n lp par (str.chars.length + 1) str sl hown
  have hset : (s₁.setType n .STRING).links = s.links := hlinks
  rw [hset] at hstored
  rw [← hstored] at hplaced
  exact ⟨_, _, h.place (hk.trans (store_keeps hn _ sl)) hstr hn hplaced (congrArg Node.type hnode) hvalue⟩

/-- A string that the table does not have. -/
theorem newString_spec (h : Laid H s m ns ds rem K) {str : CStr} (hshort : str.chars.length < 1999)
    (hstr : str ∉ K) (hroom : stringRoom str ≤ rem) {par : Ptr → Ptr} {t : SearchTree Ptr}
    (htable : Table s ds par t K) {sl : Slot Ptr} {lp : Ptr}
    (hsl : sl = .root ∨ ∃ x ∈ t.toList, sl.owner = some x)
    (hshape : ∀ q, q ≠ NULL → q ∉ t.toList →
      ((({ s.links with parent := par } : Links Ptr).create NULL q lp).store q sl).Shape NULL
        (((({ s.links with parent := par } : Links Ptr).create NULL q lp).store q sl).load .root) NULL
        (t.place (fun n => hostKey (s.string n).value) (hostKey str) q)) :
    ∃ s' x, Settles (fun k => newString H k str sl s) (s', x) ∧
      Interned H s s' m ns ds [x] rem (rem - stringRoom str) K str x := by
  obtain ⟨s₁, n, hget, hgets⟩ := newNode_spec h (sizeofString + (str.chars.length + 1)) hroom
  have hnds : n ∉ ds := fun hn => hgets.new (h.given n hn)
  let s' := s₁.putString n str sl
  have hkeeps : Keeps s₁ s' ns NULL := store_keeps hgets.new _ sl
  have hall : Keeps s s' ns NULL := hgets.keeps.trans hkeeps
  obtain ⟨hstate, hcommon, -, hfirst, -⟩ := storeString_rest
    ((s₁.setType n .STRING).setString n ⟨str.chars.length + 1, NULL, NULL, NULL, str⟩) n sl
  obtain ⟨hnode, hvalue, hlength⟩ := putString_self s₁ n str sl
  have hlinks : s₁.links = s.links := by rw [hgets.rest]; rfl
  have hformed : Formed H s' n := by
    refine .string ?_ (by rw [hnode]) (by rw [hvalue]; exact hshort) (by rw [hvalue, hlength])
    rw [hnode, hvalue]
    exact hgets.size
  have htable' := htable.stored (hgets.keeps.mono h.given) hlinks hstr hnds hgets.null hsl hshape
  have hcontent : Content H s' (ds ++ [n]) (insert str K) := by
    refine h.content.snoc (hall.mono h.given) hnds htable' hformed ?_
    intro hblk
    rw [hnode] at hblk
    cases hblk
  refine ⟨s', n, ?_, ?_, ?_, hall, ?_, ?_, ?_⟩
  · obtain ⟨k₀, hk₀⟩ := hget
    refine ⟨k₀, ?_⟩
    intro k hk
    have hnew : s.newNode H k (sizeofString + (str.chars.length + 1)) = some (s₁, n) := hk₀ k hk
    simp only [newString]
    rw [if_neg (by omega), hnew]
    rfl
  · obtain ⟨f, hbump⟩ := hgets.laid.bump
    refine ⟨⟨f, ?_⟩, hfirst.trans hgets.laid.first, ?_, ?_, hcontent⟩
    · rw [show s'.toState = _ from hstate]
      exact hbump.retype (by simp) .STRING
    · rw [show s'.toState = _ from hstate]
      exact hgets.laid.lba
    · intro y hy
      rcases List.mem_append.mp hy with hy | hy
      · exact List.mem_append_left _ (h.given y hy)
      · exact List.mem_append_right _ hy
  · rw [need_of_not_mem hstr]
    omega
  · rw [show s'.common = _ from hcommon, hgets.rest]
    rfl
  · rw [show s'.toState = _ from hstate]
    exact hgets.lba
  · exact ⟨by simp, by rw [hnode], hvalue⟩

/-- `get_string`: a string takes room only if it is not in the table yet. -/
theorem getString_spec (h : Laid H s m ns ds rem K) {str : CStr} (hshort : str.chars.length < 1999)
    (hroom : need {str} K ≤ rem) :
    ∃ s' x es rem', Settles (fun k => getString H k (some str) s) (s', x) ∧
      Interned H s s' m ns ds es rem rem' K str x := by
  obtain ⟨par, t, htable⟩ := h.content.table
  obtain ⟨sl, lp, ⟨k₀, hk₀⟩, hload, hown, hshape⟩ := htable.descends str
  by_cases hstr : str ∈ K
  · -- the table has the string
    obtain ⟨x, hx, hvalue⟩ := (htable.keys str).mp hstr
    have hfound := (SearchTree.lookup_eq_some htable.sorted).mpr ⟨hx, rfl⟩
    rw [hvalue] at hfound
    rw [hfound, Option.getD_some] at hload
    have hnull : x ≠ NULL := fun hz => h.given_ne_null (hz ▸ h.given x (htable.mem x hx).1)
    refine ⟨s, x, [], rem, ⟨k₀, ?_⟩, ?_, ?_, .refl s ns NULL, rfl, rfl, ?_⟩
    · intro k hk
      have hdescend := iterate_mono hk₀ hk
      simp only [getString]
      rw [hdescend]
      simp only [Option.bind_eq_bind, Option.bind_some, hload]
      exact if_pos hnull
    · rw [List.append_nil, List.append_nil, Finset.insert_eq_self.mpr hstr]
      exact h
    · rw [need_of_mem hstr, Nat.add_zero]
    · rw [List.append_nil]
      exact ⟨(htable.mem x hx).1, (htable.mem x hx).2, hvalue⟩
  · rw [need_of_not_mem hstr] at hroom
    rw [htable.lookup_none hstr, Option.getD_none] at hload
    obtain ⟨s', x, ⟨k₁, hk₁⟩, hinterned⟩ := newString_spec h hshort hstr hroom htable hown hshape
    refine ⟨s', x, [x], _, ⟨max k₀ k₁, ?_⟩, hinterned⟩
    intro k hk
    have hdescend := iterate_mono hk₀ (le_of_max_le_left hk)
    have hnew : newString H k str sl s = some (s', x) := hk₁ k (le_of_max_le_right hk)
    simp only [getString]
    rw [hdescend]
    simp only [Option.bind_eq_bind, Option.bind_some, hload]
    rw [if_neg (not_not_intro rfl), hnew]

end Keeping

end Frosk.Builder
