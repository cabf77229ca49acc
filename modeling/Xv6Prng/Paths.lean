import Xv6Prng.Directory

/-!
# Path names

`skipelem` splits the next element off a path, and `namex` walks from the root or from the
current directory. Each turn locks a directory, looks the element up and only then drops the
reference to the directory. A path is the bytes before its zero byte, and an element longer than
`DIRSIZ` is cut.
-/

namespace Xv6Prng.FileSys

open ByteWords Halting Fs BlockMap SlotTable

abbrev slash : Byte := 0x2f

def skipelem (path : List Byte) : Option (List Byte × List Byte) :=
  let s := path.dropWhile (· = slash)
  if s = [] then none
  else some ((s.takeWhile (· ≠ slash)).take DIRSIZ,
    (s.dropWhile (· ≠ slash)).dropWhile (· = slash))

def elemStr (elem : List Byte) : Str := fun k => elem.getD k 0

/-- The loop of `namex`. A turn takes at least one byte off the path, so that the fuel of
`namex` is not used up. -/
def namexLoop (nameiparent : Bool) :
    ℕ → Fin NINODE → List Byte → M (Option (Fin NINODE × List Byte))
  | 0, _, _ => throw .overflow
  | fuel + 1, ip, path =>
    match skipelem path with
    | none =>
      if nameiparent then do
        iput ip
        return none
      else return some (ip, [])
    | some (name, path) => do
      ilock ip
      let s ← get
      if (s.icache ip).copy.type ≠ T_DIR then do
        iunlockput ip
        return none
      else if nameiparent = true ∧ path = [] then do
        -- stop one level early
        iunlock ip
        return some (ip, name)
      else do
        let r ← dirlookup ip (elemStr name)
        match r with
        | none => do
          iunlockput ip
          return none
        | some (next, _) => do
          iunlockput ip
          namexLoop nameiparent fuel next path

/-- The inode and the last element, which is meant only for `nameiparent`. -/
def namex (cwd : Fin NINODE) (path : List Byte) (nameiparent : Bool) :
    M (Option (Fin NINODE × List Byte)) := do
  let ip ← if path.head? = some slash then iget ROOTINO else idup cwd
  namexLoop nameiparent (path.length + 1) ip path

def namei (cwd : Fin NINODE) (path : List Byte) : M (Option (Fin NINODE)) := do
  let r ← namex cwd path false
  return r.map Prod.fst

def nameiparent (cwd : Fin NINODE) (path : List Byte) : M (Option (Fin NINODE × List Byte)) :=
  namex cwd path true

def elements (path : List Byte) : List (List Byte) :=
  ((path.splitOn slash).filter (· ≠ [])).map (List.take DIRSIZ)

def skipelems : ℕ → List Byte → List (List Byte)
  | 0, _ => []
  | fuel + 1, path =>
    match skipelem path with
    | none => []
    | some (elem, rest) => elem :: skipelems fuel rest

section Elements

variable {path rest elem : List Byte}

theorem elements_slash (path : List Byte) : elements (slash :: path) = elements path := by
  rw [elements, elements, ← List.nil_append (slash :: path),
    List.splitOn_append_cons_self_of_not_mem List.not_mem_nil]
  rfl

theorem elements_dropWhile (path : List Byte) :
    elements (path.dropWhile (· = slash)) = elements path := by
  induction path with
  | nil => rfl
  | cons c cs ih =>
    by_cases hc : c = slash
    · rw [List.dropWhile_cons_of_pos (by simpa using hc), hc, elements_slash, ih]
    · rw [List.dropWhile_cons_of_neg (by simpa using hc)]

theorem elements_cons {c : Byte} (hc : c ≠ slash) (cs : List Byte) :
    elements (c :: cs) = ((c :: cs).takeWhile (· ≠ slash)).take DIRSIZ ::
      elements ((c :: cs).dropWhile (· ≠ slash)) := by
  have hrun : slash ∉ (c :: cs).takeWhile (· ≠ slash) := fun h => by
    simpa using List.mem_takeWhile_imp h
  have hne : (c :: cs).takeWhile (· ≠ slash) ≠ [] := by
    rw [List.takeWhile_cons_of_pos (by simpa using hc)]
    exact List.cons_ne_nil _ _
  have hhead := List.head?_dropWhile_not (· ≠ slash) (c :: cs)
  nth_rewrite 1 [← List.takeWhile_append_dropWhile (p := (· ≠ slash)) (l := c :: cs)]
  generalize (c :: cs).takeWhile (· ≠ slash) = run at hrun hne
  cases hrest : (c :: cs).dropWhile (· ≠ slash) with
  | nil =>
    rw [List.append_nil, elements, List.splitOn_eq_singleton hrun, List.filter_cons_of_pos (by simpa)]
    rfl
  | cons d ds =>
    obtain rfl : d = slash := by
      rw [hrest] at hhead
      simpa using hhead
    rw [elements_slash, elements, List.splitOn_append_cons_self_of_not_mem hrun,
      List.filter_cons_of_pos (by simpa)]
    rfl

theorem skipelem_cases (path : List Byte) :
    skipelem path = none ∧ elements path = [] ∨
      ∃ elem rest, skipelem path = some (elem, rest) ∧ elements path = elem :: elements rest ∧
        (rest = [] ↔ elements rest = []) := by
  have hhead (l : List Byte) : l.dropWhile (· = slash) = [] ∨
      ∃ c cs, l.dropWhile (· = slash) = c :: cs ∧ c ≠ slash := by
    have hnot := List.head?_dropWhile_not (· = slash) l
    cases hl : l.dropWhile (· = slash) with
    | nil => exact Or.inl rfl
    | cons c cs =>
      rw [hl] at hnot
      exact Or.inr ⟨c, cs, rfl, by simpa using hnot⟩
  rw [skipelem, ← elements_dropWhile path]
  rcases hhead path with hnil | ⟨c, cs, hs, hc⟩
  · rw [hnil]
    exact Or.inl ⟨if_pos rfl, rfl⟩
  · rw [hs, if_neg (List.cons_ne_nil c cs), elements_cons hc]
    refine Or.inr ⟨_, _, rfl, by rw [elements_dropWhile], ?_⟩
    rcases hhead ((c :: cs).dropWhile (· ≠ slash)) with hnil | ⟨d, ds, hd, hne⟩
    · rw [hnil]
      exact iff_of_true rfl rfl
    · rw [hd, elements_cons hne]
      exact iff_of_false (List.cons_ne_nil _ _) (List.cons_ne_nil _ _)

theorem length_skipelem (h : skipelem path = some (elem, rest)) : rest.length < path.length := by
  rw [skipelem] at h
  split_ifs at h with hnil
  obtain ⟨c, cs, hs⟩ := List.exists_cons_of_ne_nil hnil
  have hc : c ≠ slash := by
    have hhead := List.head?_dropWhile_not (· = slash) path
    rw [hs] at hhead
    simpa using hhead
  rw [hs, Option.some_inj, Prod.mk.injEq, List.dropWhile_cons_of_pos (by simpa using hc)] at h
  have hle : (c :: cs).length ≤ path.length := hs ▸ (List.dropWhile_sublist _).length_le
  calc rest.length ≤ cs.length := by
        rw [← h.2]
        exact ((List.dropWhile_sublist _).trans (List.dropWhile_sublist _)).length_le
    _ < path.length := hle

theorem nameOf_elemStr (hzero : (0 : Byte) ∉ elem) (n : ℕ) :
    nameOf (elemStr elem) n = elem.take n := by
  induction n generalizing elem with
  | zero => rfl
  | succ n ih =>
    cases elem with
    | nil => rfl
    | cons c cs =>
      have hc : c ≠ 0 := fun heq => hzero (heq ▸ List.mem_cons_self)
      have htail : nameOf (elemStr (c :: cs)).tail n = cs.take n :=
        ih fun h => hzero (List.mem_cons_of_mem c h)
      rw [nameOf, htail, List.take_succ_cons]
      exact if_neg hc

theorem skipelems_eq {fuel : ℕ} (h : path.length ≤ fuel) : skipelems fuel path = elements path := by
  induction fuel generalizing path with
  | zero =>
    rw [List.eq_nil_of_length_eq_zero (Nat.le_zero.mp h)]
    rfl
  | succ fuel ih =>
    rw [skipelems]
    rcases skipelem_cases path with ⟨hskip, hnil⟩ | ⟨elem, rest, hskip, hcons, -⟩
    · rw [hskip, hnil]
    · have hlt := length_skipelem hskip
      rw [hskip, hcons]
      exact congrArg (elem :: ·) (ih (by omega))

end Elements

/-- The references are those of `s₀` and `e` more, `l` is the one inode that is locked, and the
file system is the same. -/
structure Walk (s₀ : State) (e : Fin NINODE → ℕ) (l : Option (Fin NINODE)) (s : State) : Prop where
  view : SameView s₀ s
  refs : ∀ k, (s.icache k).ref = (s₀.icache k).ref + e k
  inums : ∀ k, 0 < (s₀.icache k).ref → (s.icache k).inum = (s₀.icache k).inum
  busy : ∀ k, 0 < (s.icache k).ref ∧ (s.icache k).busy = true ↔ l = some k

namespace Walk

variable {s₀ s : State} {e e' : Fin NINODE → ℕ} {l l' : Option (Fin NINODE)} {ip q : Fin NINODE}
  {x : Inode} {i : ℕ}

theorem refl (hm : Mounted s) (hfree : ∀ k, 0 < (s.icache k).ref → (s.icache k).busy = false) :
    Walk s 0 none s where
  view := ⟨rfl, hm, fun _ => rfl⟩
  refs _ := rfl
  inums _ _ := rfl
  busy k := iff_of_false (fun h => by simp [hfree k h.1] at h) (by simp)

theorem putInode (h : Walk s₀ e l s) (hview : SameView s (s.putInode ip x))
    (href : x.ref = (s₀.icache ip).ref + e' ip) (he : ∀ k ≠ ip, e' k = e k)
    (hinum : 0 < (s₀.icache ip).ref → x.inum = (s₀.icache ip).inum)
    (hbusy : 0 < x.ref ∧ x.busy = true ↔ l' = some ip)
    (hl : ∀ k ≠ ip, (l' = some k ↔ l = some k)) : Walk s₀ e' l' (s.putInode ip x) := by
  refine ⟨h.view.trans hview, fun k => ?_, fun k hk => ?_, fun k => ?_⟩ <;>
    by_cases hkip : k = ip
  · rw [hkip, icache_putInode_self, href]
  · rw [icache_putInode_of_ne hkip, h.refs, he k hkip]
  · rw [hkip] at hk ⊢
    rw [icache_putInode_self, hinum hk]
  · rw [icache_putInode_of_ne hkip, h.inums k hk]
  · rw [hkip, icache_putInode_self, hbusy]
  · rw [icache_putInode_of_ne hkip, h.busy, hl k hkip]

theorem eq_of_inum {k : Fin NINODE} (h : Walk s₀ e l s) (hk : 0 < (s₀.icache k).ref)
    (hip : 0 < (s.icache ip).ref) (hinum : (s₀.icache k).inum = (s.icache ip).inum) : k = ip := by
  refine h.view.mounted.unique k ip ?_ hip ((h.inums k hk).trans hinum)
  rw [h.refs]
  omega

theorem inum_putInode (hx : x.inum = (s.icache ip).inum) (k : Fin NINODE) :
    ((s.putInode ip x).icache k).inum = (s.icache k).inum := by
  by_cases hk : k = ip
  · rw [hk, icache_putInode_self, hx]
  · rw [icache_putInode_of_ne hk]

theorem ilock (h : Walk s₀ e none s) (href : 0 < (s.icache ip).ref)
    (htype : (s₀.inode (s.icache ip).inum).type ≠ 0) :
    (ilock ip).run s = .ok () (s.lock ip) ∧ Walk s₀ e (some ip) (s.lock ip) := by
  have hbusy : (s.icache ip).busy = false := by
    by_contra hbusy
    cases (h.busy ip).mp ⟨href, by simpa using hbusy⟩
  refine ⟨ilock_run h.view.mounted href hbusy (by rwa [h.view.inode]), ?_⟩
  exact h.putInode (sameView_lock h.view.mounted href) (h.refs ip) (fun _ _ => rfl) (h.inums ip)
    (iff_of_true ⟨href, rfl⟩ rfl) fun k hk => by simp [hk.symm]

theorem iunlock (h : Walk s₀ e (some ip) s) :
    (iunlock ip).run s = .ok () (s.unlock ip) ∧ Walk s₀ e none (s.unlock ip) := by
  obtain ⟨href, hbusy⟩ := (h.busy ip).mpr rfl
  refine ⟨iunlock_run href hbusy, ?_⟩
  exact h.putInode (sameView_unlock h.view.mounted) (h.refs ip) (fun _ _ => rfl) (h.inums ip)
    (iff_of_false (by simp) (by simp)) fun k hk => by simp [hk.symm]

theorem dup (h : Walk s₀ e l s) (href : 0 < (s.icache q).ref) :
    Walk s₀ (Pi.single q 1 + e) l (s.dup q) := by
  refine h.putInode (sameView_dup h.view.mounted href) ?_ (fun k hk => ?_) (h.inums q) ?_
    fun _ _ => Iff.rfl
  · dsimp only
    rw [h.refs, Pi.add_apply, Pi.single_eq_same]
    omega
  · rw [Pi.add_apply, Pi.single_eq_of_ne hk, Nat.zero_add]
  · rw [← h.busy q]
    exact ⟨fun hb => ⟨href, hb.2⟩, fun hb => ⟨Nat.succ_pos _, hb.2⟩⟩

theorem iget (h : Walk s₀ e l s) (hi : 1 ≤ i ∧ i < s₀.sb.ninodes.toNat) :
    Ends (iget i) s (fun q s' => Walk s₀ (Pi.single q 1 + e) l s' ∧ (s'.icache q).inum = i ∧
        ∀ k, 0 < (s.icache k).ref → (s'.icache k).inum = (s.icache k).inum)
      (fun e _ => e = .panic "iget: no inodes" ∧ ∀ k, 0 < (s.icache k).ref) := by
  refine iget_ends.mono ?_ fun _ _ he => ⟨he.1, fun k => (he.2 k).1⟩
  rintro q s' (⟨href, hinum, rfl⟩ | ⟨href, hnew, rfl⟩)
  · have hsame : ∀ k, ((s.dup q).icache k).inum = (s.icache k).inum := inum_putInode rfl
    exact ⟨h.dup href, (hsame q).trans hinum, fun k _ => hsame k⟩
  · have hrefs := h.refs q
    have hview := sameView_fresh h.view.mounted href (h.view.sb ▸ hi) hnew
    refine ⟨h.putInode hview ?_ (fun k hk => ?_) (fun hq => ?_) ?_ fun _ _ => Iff.rfl, ?_,
      fun k hk => ?_⟩
    · dsimp only
      rw [Pi.add_apply, Pi.single_eq_same]
      omega
    · rw [Pi.add_apply, Pi.single_eq_of_ne hk, Nat.zero_add]
    · omega
    · refine iff_of_false (by simp) fun hl => ?_
      exact ((h.busy q).mpr hl).1.ne' href
    · rw [State.fresh, icache_putInode_self]
    · have hkq : k ≠ q := by
        rintro rfl
        exact hk.ne' href
      rw [State.fresh, icache_putInode_of_ne hkq]

theorem iput (h : Walk s₀ (Pi.single ip 1 + e) none s)
    (hlink : (s₀.icache ip).ref = 0 → (s₀.inode (s.icache ip).inum).nlink ≠ 0) :
    (iput ip).run s = .ok () (s.drop ip) ∧ Walk s₀ e none (s.drop ip) := by
  have hm := h.view.mounted
  have hrefs := h.refs ip
  rw [Pi.add_apply, Pi.single_eq_same] at hrefs
  have hpos : 0 < (s.icache ip).ref := by omega
  -- a last reference was not there at the start, and the inode was not cached then
  have hnew (hlast : (s.icache ip).ref = 1) (k : Fin NINODE) :
      ¬ s₀.Holds k (s.icache ip).inum := by
    rintro ⟨hk, -, hinum⟩
    rw [h.eq_of_inum hk hpos hinum] at hk
    omega
  refine ⟨iput_run fun ⟨hlast, hvalid, hnlink⟩ => hlink (by omega) ?_, ?_⟩
  · rw [← h.view.inode, inode_of_holds hm ⟨hpos, hvalid, rfl⟩, hnlink]
  · have hview := sameView_drop hm hpos fun hlast => by
      rw [h.view.inode, h.view.dinode, inode_of_not_holds (hnew hlast)]
    refine h.putInode hview ?_ (fun k hk => ?_) (h.inums ip) ?_ fun _ _ => Iff.rfl
    · dsimp only
      omega
    · rw [Pi.add_apply, Pi.single_eq_of_ne hk, Nat.zero_add]
    · refine iff_of_false (fun hb => ?_) (by simp)
      exact absurd ((h.busy ip).mp ⟨hpos, hb.2⟩) (by simp)

theorem iunlockput (h : Walk s₀ (Pi.single ip 1 + e) (some ip) s)
    (hlink : (s₀.icache ip).ref = 0 → (s₀.inode (s.icache ip).inum).nlink ≠ 0) :
    Returns (iunlockput ip) s fun _ s' => Walk s₀ e none s' ∧
      ∀ k, (s'.icache k).inum = (s.icache k).inum := by
  obtain ⟨hunlock, h₁⟩ := h.iunlock
  have hinum : ∀ k, ((s.unlock ip).icache k).inum = (s.icache k).inum := inum_putInode rfl
  obtain ⟨hput, h₂⟩ := h₁.iput (by rwa [hinum])
  refine Returns.bind_of_eq hunlock (returns_of_eq hput ⟨h₂, fun k => ?_⟩)
  rw [← hinum]
  exact inum_putInode (by rfl) k

end Walk

structure Listable (i n : ℕ) (s : State) : Prop where
  mounted : Mounted s
  owns : Owns ∅ s
  live : s.Live i
  dir : (s.inode i).type = T_DIR
  size : DESIZE * n ≤ (s.inode i).size.toNat
  max : DESIZE * n ≤ MAXFILE * BSIZE
  full : ∀ k < n, s.addr (i, blockSlot (DESIZE * k / BSIZE)) ≠ 0

namespace State

variable (s : State)

def resolve : ℕ → List (List Byte) → Option ℕ
  | i, [] => some i
  | i, e :: es =>
    if (s.inode i).type = T_DIR then
      ((s.table i).get (nameOf (elemStr e) DIRSIZ)).bind fun v => resolve v es
    else none

def resolveParent (i : ℕ) (es : List (List Byte)) : Option (ℕ × List Byte) :=
  es.getLast?.bind fun e => ((s.resolve i es.dropLast).filter fun v =>
    (s.inode v).type = T_DIR).map fun v => (v, e)

def target (nameiparent : Bool) (i : ℕ) (es : List (List Byte)) : Option (ℕ × List Byte) :=
  if nameiparent then s.resolveParent i es else (s.resolve i es).map fun v => (v, [])

def Kept (i : ℕ) : Prop :=
  (s.inode i).nlink ≠ 0 ∨ ∃ k, 0 < (s.icache k).ref ∧ (s.icache k).inum = i

def Searchable (i : ℕ) (name : List Byte) : Prop :=
  ∃ n, Listable i n s ∧ match (s.table i).find name with
    | some k => k < n
    | none => (s.inode i).size.toNat = DESIZE * n

def Walkable (nameiparent : Bool) : ℕ → List (List Byte) → Prop
  | i, [] => (1 ≤ i ∧ i < s.sb.ninodes.toNat) ∧ (nameiparent = true → s.Kept i)
  | i, e :: es => s.Live i ∧ s.Kept i ∧ ((s.inode i).type = T_DIR →
      nameiparent = true ∧ es = [] ∨ s.Searchable i (nameOf (elemStr e) DIRSIZ) ∧
        ∀ v, (s.table i).get (nameOf (elemStr e) DIRSIZ) = some v → Walkable nameiparent v es)

def start (cwd : Fin NINODE) (path : List Byte) : ℕ :=
  if path.head? = some slash then ROOTINO else (s.icache cwd).inum

end State

/-- The panic of `iget`, which takes a cache with no more than one free entry: a walk holds a
directory while it gets the next inode. -/
def NoInodes (s₀ : State) (e : Halt) (_ : State) : Prop :=
  e = .panic "iget: no inodes" ∧
    ∀ k l, (s₀.icache k).ref = 0 → (s₀.icache l).ref = 0 → k = l

/-- What a call leaves: the inode with one more reference, or nothing and all as it was. -/
def Outcome (s₀ : State) (t : Option (ℕ × List Byte)) (r : Option (Fin NINODE × List Byte))
    (s : State) : Prop :=
  match t with
  | none => r = none ∧ Walk s₀ 0 none s
  | some (i, name) => ∃ ip, r = some (ip, name) ∧ (s.icache ip).inum = i ∧
      Walk s₀ (Pi.single ip 1) none s

section Resolve

variable {s₀ s : State} {e : Fin NINODE → ℕ} {ip : Fin NINODE} {i n : ℕ} {name : List Byte}
  {es : List (List Byte)} {b : Bool}

theorem target_nil : s.target b i [] = if b then none else some (i, []) := by
  cases b <;> rfl

theorem target_cons : s.target b i (name :: es) =
    if (s.inode i).type = T_DIR then
      if b = true ∧ es = [] then some (i, name)
      else ((s.table i).get (nameOf (elemStr name) DIRSIZ)).bind fun v => s.target b v es
    else none := by
  cases b with
  | false =>
    change (s.resolve i (name :: es)).map _ = _
    rw [State.resolve]
    split_ifs with hdir hlast
    · cases hlast.1
    · exact Option.map_bind ..
    · rfl
  | true =>
    cases es with
    | nil =>
      change ((some i).filter _).map _ = _
      rw [Option.filter_some]
      by_cases hdir : (s.inode i).type = T_DIR
      · rw [if_pos (decide_eq_true hdir), if_pos hdir, if_pos ⟨rfl, rfl⟩]
        rfl
      · rw [if_neg (by simpa using hdir), if_neg hdir]
        rfl
    | cons e es =>
      change s.resolveParent i (name :: e :: es) = _
      rw [State.resolveParent, List.getLast?_cons_cons, List.dropLast_cons_of_ne_nil (by simp),
        State.resolve]
      split_ifs with hdir hlast
      · cases hlast.2
      · cases (s.table i).get (nameOf (elemStr name) DIRSIZ) with
        | none => simp
        | some v => rfl
      · simp

theorem Walkable.range (h : s.Walkable b i es) : 1 ≤ i ∧ i < s.sb.ninodes.toNat := by
  cases es with
  | nil => exact h.1
  | cons e es => exact ⟨h.1.1, h.1.2.1⟩

theorem Walk.nlink_ne_zero {l : Option (Fin NINODE)} (h : Walk s₀ e l s)
    (href : 0 < (s.icache ip).ref) (hkept : s₀.Kept (s.icache ip).inum)
    (hnew : (s₀.icache ip).ref = 0) : (s₀.inode (s.icache ip).inum).nlink ≠ 0 := by
  refine hkept.resolve_right ?_
  rintro ⟨k, hk, hinum⟩
  rw [h.eq_of_inum hk href hinum] at hk
  exact hk.ne' hnew

theorem Listable.readable (h : Listable i n s₀) (hview : SameView s₀ s) (hip : s.Holds ip i) :
    Readable ip i n s where
  mounted := hview.mounted
  owns := hview.owns h.owns
  holds := hip
  dir := by
    rw [hview.inode]
    exact h.dir
  size := by
    rw [hview.inode]
    exact h.size
  max := h.max
  full k hk := by
    rw [hview.addr]
    exact h.full k hk

theorem Walk.dirlookup {name : Str} (h : Walk s₀ e (some ip) s) (hip : s.Holds ip i)
    (hs : s₀.Searchable i (nameOf name DIRSIZ))
    (hrange : ∀ v, (s₀.table i).get (nameOf name DIRSIZ) = some v →
      1 ≤ v ∧ v < s₀.sb.ninodes.toNat) :
    Ends (dirlookup ip name) s (fun r s' =>
        match (s₀.table i).get (nameOf name DIRSIZ) with
        | none => r = none ∧ s' = s
        | some v => ∃ q off, r = some (q, off) ∧ Walk s₀ (Pi.single q 1 + e) (some ip) s' ∧
            (s'.icache q).inum = v ∧ (s'.icache ip).inum = i)
      (fun e _ => e = .panic "iget: no inodes" ∧ ∀ k, 0 < (s.icache k).ref) := by
  obtain ⟨n, hlist, hn⟩ := hs
  have hread := hlist.readable h.view hip
  rw [← h.view.table] at hrange hn ⊢
  cases hfind : (s.table i).find (nameOf name DIRSIZ) with
  | none =>
    rw [hfind] at hn
    have hnone := Table.find_eq_none.mp hfind
    rw [Table.get_eq_none.mpr hnone]
    exact ends_of_ok (dirlookup_absent hread (by rwa [h.view.inode]) hnone) ⟨rfl, rfl⟩
  | some k =>
    rw [hfind] at hn
    obtain ⟨⟨v, hk⟩, hbefore⟩ := Table.find_eq_some_iff.mp hfind
    have hget := Table.get_of_find hfind hk
    rw [hget, Ends, dirlookup_found hread hn hk hbefore]
    refine (h.iget (hrange v hget)).bind fun q s' hq => ?_
    exact ends_pure ⟨q, _, rfl, hq.1, hq.2.1, (hq.2.2 ip hip.1).trans hip.2.2⟩

theorem Walk.noInodes {l : Option (Fin NINODE)} (h : Walk s₀ (Pi.single ip 1) l s) {e : Halt}
    (he : e = .panic "iget: no inodes" ∧ ∀ k, 0 < (s.icache k).ref) (s' : State) :
    NoInodes s₀ e s' := by
  have hone : ∀ k, (s₀.icache k).ref = 0 → k = ip := fun k hk => by
    by_contra hne
    have hpos := he.2 k
    rw [h.refs, hk, Pi.single_eq_of_ne hne] at hpos
    exact lt_irrefl 0 hpos
  exact ⟨he.1, fun k l hk hl => (hone k hk).trans (hone l hl).symm⟩

theorem namexLoop_ends {fuel : ℕ} {path : List Byte} (hfuel : path.length < fuel)
    (h : Walk s₀ (Pi.single ip 1) none s) (hi : (s.icache ip).inum = i)
    (hwalk : s₀.Walkable b i (elements path)) :
    Ends (namexLoop b fuel ip path) s (Outcome s₀ (s₀.target b i (elements path)))
      (NoInodes s₀) := by
  induction fuel generalizing ip i path s with
  | zero => omega
  | succ fuel ih =>
    subst hi
    have href : 0 < (s.icache ip).ref := by
      rw [h.refs, Pi.single_eq_same]
      omega
    have hput : Walk s₀ (Pi.single ip 1 + 0) none s := by rwa [add_zero]
    rw [namexLoop]
    rcases skipelem_cases path with ⟨hskip, hnil⟩ | ⟨name, rest, hskip, hcons, hrest⟩
    · rw [hskip]
      rw [hnil] at hwalk ⊢
      rw [target_nil]
      cases b with
      | false => exact ends_pure ⟨ip, rfl, rfl, h⟩
      | true =>
        obtain ⟨hrun, h₁⟩ := hput.iput (h.nlink_ne_zero href (hwalk.2 rfl))
        exact Ends.bind_of_eq hrun (ends_pure ⟨rfl, h₁⟩)
    · rw [hskip]
      rw [hcons] at hwalk ⊢
      obtain ⟨hlive, hkept, hdirs⟩ := hwalk
      obtain ⟨hlock, h₁⟩ := h.ilock href hlive.2.2
      have hcopy : (s.lock ip).icache ip = { s.icache ip with
          busy := true, valid := true, copy := s₀.inode (s.icache ip).inum } := by
        rw [State.lock, icache_putInode_self, h.view.inode]
      have hholds : (s.lock ip).Holds ip (s.icache ip).inum := by
        rw [State.Holds, hcopy]
        exact ⟨href, rfl, rfl⟩
      have hlink := h.nlink_ne_zero href hkept
      have hfail : Ends (do iunlockput ip; return none : M (Option (Fin NINODE × List Byte)))
          (s.lock ip) (Outcome s₀ none) (NoInodes s₀) := by
        refine (Walk.iunlockput (e := 0) (by rwa [add_zero]) (by rwa [hcopy])).ends.bind
          fun _ s' hs => ?_
        exact ends_pure ⟨rfl, hs.1⟩
      refine Ends.bind_of_eq hlock (ends_get_bind ?_)
      rw [hcopy, target_cons]
      dsimp only
      by_cases hdir : (s₀.inode (s.icache ip).inum).type = T_DIR
      swap
      · rw [if_pos hdir, if_neg hdir]
        exact hfail
      rw [if_neg (not_not.mpr hdir), if_pos hdir]
      simp only [hrest]
      by_cases hlast : b = true ∧ elements rest = []
      · -- stop one level early
        rw [if_pos hlast, if_pos hlast]
        obtain ⟨hunlock, h₂⟩ := h₁.iunlock
        have hinum : (((s.lock ip).unlock ip).icache ip).inum = (s.icache ip).inum := by
          rw [State.unlock, icache_putInode_self]
          exact hholds.2.2
        exact Ends.bind_of_eq hunlock (ends_pure ⟨ip, rfl, hinum, h₂⟩)
      · rw [if_neg hlast, if_neg hlast]
        obtain ⟨hsearch, hnext⟩ := (hdirs hdir).resolve_left hlast
        refine ((h₁.dirlookup hholds hsearch fun v hv => ?_).mono (fun _ _ hr => hr)
          fun _ s' he => h₁.noInodes he s').bind fun r s₂ hr => ?_
        · exact Walkable.range (hnext v hv)
        · cases hget : (s₀.table (s.icache ip).inum).get (nameOf (elemStr name) DIRSIZ) with
          | none =>
            rw [hget] at hr
            obtain ⟨rfl, rfl⟩ := hr
            exact hfail
          | some v =>
            rw [hget] at hr
            obtain ⟨q, off, rfl, h₂, hq, hip⟩ := hr
            rw [add_comm] at h₂
            refine (h₂.iunlockput (by rwa [hip])).ends.bind fun _ s₃ h₃ => ?_
            have hlt := length_skipelem hskip
            exact ih (by omega) h₃.1 ((h₃.2 q).trans hq) (hnext v hget)

variable {cwd : Fin NINODE} {path : List Byte}

theorem namex_ends (hm : Mounted s)
    (hfree : ∀ k, 0 < (s.icache k).ref → (s.icache k).busy = false)
    (hcwd : path.head? ≠ some slash → 0 < (s.icache cwd).ref)
    (hwalk : s.Walkable b (s.start cwd path) (elements path)) :
    Ends (namex cwd path b) s (Outcome s (s.target b (s.start cwd path) (elements path)))
      (NoInodes s) := by
  have hrefl := Walk.refl hm hfree
  rw [namex]
  rw [State.start] at hwalk ⊢
  split_ifs at hwalk ⊢ with hslash
  · refine ((hrefl.iget (Walkable.range hwalk)).mono (fun _ _ hr => hr) fun e _ he =>
      ⟨he.1, fun k _ hk => absurd hk (he.2 k).ne'⟩).bind fun ip s₁ h => ?_
    rw [add_zero] at h
    exact namexLoop_ends (Nat.lt_succ_self _) h.1 h.2.1 hwalk
  · have hdup := hrefl.dup (hcwd hslash)
    rw [add_zero] at hdup
    refine Ends.bind_of_eq (rfl : (idup cwd).run s = .ok cwd (s.dup cwd)) ?_
    exact namexLoop_ends (Nat.lt_succ_self _) hdup (Walk.inum_putInode (by rfl) cwd) hwalk

end Resolve

section Root

variable {s s' : State} {n k v : ℕ} {elem : List Byte}

def Idle (s : State) : Prop := ∀ k, (s.icache k).ref = 0

theorem elements_single (hne : elem ≠ []) (hslash : slash ∉ elem) :
    elements (slash :: elem) = [elem.take DIRSIZ] := by
  rw [elements_slash, elements, List.splitOn_eq_singleton hslash, List.filter_cons_of_pos (by simpa)]
  rfl

theorem namei_root (h : Listable ROOTINO n s) (hidle : Idle s)
    (hlinks : (s.inode ROOTINO).nlink ≠ 0) (hne : elem ≠ []) (hslash : slash ∉ elem) (hk : k < n)
    (hslot : (s.table ROOTINO).slot k = some (nameOf (elemStr (elem.take DIRSIZ)) DIRSIZ, v))
    (hbefore : ∀ l < k, ∀ w,
      (s.table ROOTINO).slot l ≠ some (nameOf (elemStr (elem.take DIRSIZ)) DIRSIZ, w))
    (hv : 1 ≤ v ∧ v < s.sb.ninodes.toNat) (cwd : Fin NINODE) :
    Returns (namei cwd (slash :: elem)) s fun r s' => ∃ ip, r = some ip ∧ SameView s s' ∧
      0 < (s'.icache ip).ref ∧ (s'.icache ip).busy = false ∧ (s'.icache ip).inum = v := by
  have hfind := Table.find_eq_some_iff.mpr ⟨⟨v, hslot⟩, hbefore⟩
  have hget := Table.get_of_find hfind hslot
  have hwalk : s.Walkable false ROOTINO [elem.take DIRSIZ] := by
    refine ⟨h.live, Or.inl hlinks, fun _ => Or.inr ⟨⟨n, h, by rwa [hfind]⟩, fun w hw => ?_⟩⟩
    rw [hget] at hw
    cases hw
    exact ⟨hv, by simp⟩
  have htarget : s.target false ROOTINO [elem.take DIRSIZ] = some (v, []) := by
    rw [target_cons, if_pos h.dir, if_neg (by simp), hget]
    rfl
  rw [← elements_single hne hslash] at hwalk htarget
  have hstart : s.start cwd (slash :: elem) = ROOTINO := if_pos rfl
  rw [← hstart] at hwalk htarget
  have hnamex := (namex_ends h.mounted (fun k hk => absurd hk (hidle k).not_gt)
    (fun hc => absurd rfl hc) hwalk).returns fun _ _ he =>
      absurd (he.2 0 1 (hidle 0) (hidle 1)) (by decide)
  rw [htarget] at hnamex
  refine hnamex.bind ?_
  rintro _ s' ⟨ip, rfl, hinum, hw⟩
  have href : 0 < (s'.icache ip).ref := by
    rw [hw.refs, Pi.single_eq_same]
    omega
  refine returns_pure ⟨ip, rfl, hw.view, href, ?_, hinum⟩
  by_contra hbusy
  cases (hw.busy ip).mp ⟨href, by simpa using hbusy⟩

end Root

/-- A file system in which directories are whole and name inodes that are in use. No inode is
locked, and those without a link are referenced. A directory that was removed while it was in
use is left out: its `..` may name an inode that has been freed since. -/
structure Tree (s : State) : Prop where
  wf : WellFormed s
  root : s.Live ROOTINO
  aligned : ∀ i, s.Live i → (s.inode i).type = T_DIR → DESIZE ∣ (s.inode i).size.toNat
  entries : ∀ i, s.Live i → (s.inode i).type = T_DIR → ∀ k a v,
    (s.table i).slot k = some (a, v) → s.Live v
  kept : ∀ i, s.Live i → s.Kept i
  cached : ∀ k, 0 < (s.icache k).ref → s.Live (s.icache k).inum ∧ (s.icache k).busy = false

section Tree

variable {s : State} {i : ℕ}

theorem Tree.searchable (h : Tree s) (hlive : s.Live i) (hdir : (s.inode i).type = T_DIR)
    (name : List Byte) : s.Searchable i name := by
  have hmul := mul_dirLen (h.aligned i hlive hdir)
  refine ⟨s.dirLen i, ⟨h.wf.mounted, h.wf.owns, hlive, hdir, hmul.le,
    hmul.le.trans (h.wf.size_le hlive (.inr hdir)),
    fun _ hk => addr_dirent h.wf hlive hdir hk (j := 0) (by decide)⟩, ?_⟩
  cases hfind : (s.table i).find name with
  | none => exact hmul.symm
  | some k =>
    obtain ⟨v, hv⟩ := Table.slot_of_find hfind
    exact Table.lt_size hv

theorem Tree.walkable (h : Tree s) (b : Bool) (es : List (List Byte)) (hlive : s.Live i) :
    s.Walkable b i es := by
  induction es generalizing i with
  | nil => exact ⟨⟨hlive.1, hlive.2.1⟩, fun _ => h.kept i hlive⟩
  | cons e es ih =>
    refine ⟨hlive, h.kept i hlive, fun hdir => Or.inr ⟨h.searchable hlive hdir _, fun v hv => ?_⟩⟩
    obtain ⟨k, hk⟩ := Table.slot_of_get hv
    exact ih (h.entries i hlive hdir k _ v hk)

theorem tree_small : Tree ((smallState 36).unlock 0) := by
  have hwf : WellFormed (smallState 36) := wellFormed_small (by decide) (by decide)
  have hview : SameView (smallState 36) ((smallState 36).unlock 0) := sameView_unlock hwf.mounted
  have hone : ((smallState 36).unlock 0).inode 1 = smallRoot :=
    (hview.inode 1).trans inode_small_one
  have htwo : ((smallState 36).unlock 0).inode 2 = smallFile :=
    (hview.inode 2).trans (inode_small_two (by decide) (by decide))
  have hlive : ∀ i, ((smallState 36).unlock 0).Live i ↔ i = 1 ∨ i = 2 := by
    refine fun i => ⟨fun ⟨hlo, hhi, _⟩ => ?_, ?_⟩
    · have hhi : i < 3 := hhi
      omega
    · rintro (rfl | rfl)
      · exact ⟨by decide, by decide, by rw [hone]; decide⟩
      · exact ⟨by decide, by decide, by rw [htwo]; decide⟩
  have hdir : ∀ i, ((smallState 36).unlock 0).Live i →
      (((smallState 36).unlock 0).inode i).type = T_DIR → i = 1 := by
    intro i hi htype
    refine ((hlive i).mp hi).resolve_right ?_
    rintro rfl
    rw [htwo] at htype
    exact absurd htype (by decide)
  have hslots : ∀ k < 3, (((smallState 36).unlock 0).dirent 1 k).inum.toNat = 1 ∨
      (((smallState 36).unlock 0).dirent 1 k).inum.toNat = 2 := by
    decide +kernel
  refine ⟨hview.wellFormed hwf, (hlive 1).mpr (Or.inl rfl), fun i hi ht => ?_,
    fun i hi ht k a v hk => ?_, fun i hi => Or.inl ?_, fun k hk => ?_⟩
  · rw [hdir i hi ht, hone]
    decide
  · rw [hdir i hi ht] at hk
    obtain ⟨hlen, -, -, hv⟩ := slot_eq_some.mp hk
    rw [State.dirLen, hone] at hlen
    rw [hlive, ← hv]
    exact hslots k hlen
  · rcases (hlive i).mp hi with rfl | rfl
    · rw [hone]
      decide
    · rw [htwo]
      decide
  · obtain rfl : k = 0 := by
      by_contra hne
      rw [State.unlock, icache_putInode_of_ne hne] at hk
      simp [smallState, hne] at hk
    exact ⟨(hlive 2).mpr (Or.inr rfl), rfl⟩

end Tree

end Xv6Prng.FileSys
