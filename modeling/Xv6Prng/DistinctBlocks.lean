import Xv6Prng.Delivery

/-!
# The blocks of one request are pairwise different

The counter does not repeat within fewer than `2^34 - 3` increments and the cipher is
injective for every key, so the blocks of one stretch of the stream differ. They are read
back where they are used: those of `prnggenblocks` in its pages, those of a request in the
output pages and in the new key.
-/

namespace Xv6Prng

open ByteWords Halting Ownership

variable {L : Layout}

def Kernel.blockAt (s : Kernel L) (arr : PageAddr L) (i : ℕ) : Option (Buffer 16) :=
  if h : IsPage L (loadWord (s.heap.mem arr) (16 * i / 4096)) then
    some fun j => byteAt (s.heap.mem ⟨_, h⟩) (16 * i % 4096 + j.val)
  else none

/-- Block `i` of a request with `m` whole output blocks: of the output, or of the key that
follows it. -/
def Kernel.requestBlock (s : Kernel L) (output : PageAddr L) (m i : ℕ) : Option (Buffer 16) :=
  if i < m then s.blockAt output i else some fun j => byteAt s.prng.key (16 * (i - m) + j.val)

def Distinct (block : ℕ → Option (Buffer 16)) (n : ℕ) : Prop :=
  ∀ i j, i < j → j < n → block i ≠ block j

def streamBlock (key : Buffer 32) (c : Counter) (i : ℕ) : Option (Buffer 16) :=
  some (encryptCounter key (Counter.incrctr^[i] c)).get

theorem streamBlock_ne (key : Buffer 32) (c : Counter) {i j : ℕ} (hij : i < j) (hj : j < 65538) :
    streamBlock key c i ≠ streamBlock key c j := by
  intro he
  have hblock := encryptCounter_injective _ (Vector.ext fun k hk =>
    congrFun (Option.some.inj he) ⟨k, hk⟩)
  refine Counter.iterate_ne c hij ?_ hblock.symm
  unfold Counter.period
  omega

section Blocks

variable {s : Kernel L} {v : View L} {arr out p a b q : PageAddr L}
  {pages rest : List (PageAddr L)} {n i : ℕ}

theorem blockAt_of_entry {key : Buffer 32} {c : Counter}
    (h : loadWord (s.heap.mem arr) (16 * i / 4096) = p.val)
    (hdata : ∀ j : Fin 16, byteAt (s.heap.mem p) (16 * i % 4096 + j.val) =
      keystream key c (16 * i + j.val)) : s.blockAt arr i = streamBlock key c i := by
  simp only [Kernel.blockAt, h, p.property, dif_pos, hdata, keystream_block]
  rfl

theorem blockAt_of_generated (hs : Generated v arr pages rest pages.length n s)
    (hlen : pages.length = (n + 255) / 256) (hi : i < n) :
    s.blockAt arr i = streamBlock v.prng.key v.prng.counter i := by
  obtain ⟨mem, hmem, hsees⟩ := hs
  have hlt : 16 * i / 4096 < pages.length := by omega
  have hp := List.getElem?_eq_getElem hlt
  have hs : s.heap.mem = mem := hsees.mem
  refine blockAt_of_entry (p := pages[16 * i / 4096]) ?_ fun j => ?_
  · rw [hs]
    exact hmem.entry _ _ hlt hp
  · have hj := j.isLt
    have hpos : 4096 * (16 * i / 4096) + (16 * i % 4096 + j.val) = 16 * i + j.val := by omega
    rw [hs, byteAt_of_lt _ (by omega), hmem.data _ _ hlt hp, if_pos (by simp only; omega)]
    simp only [hpos]

theorem requestBlock_key {user : Word → Byte} {events : List (Event Word)}
    {mem : PageAddr L → Page} (hs : Sees s (v.served n user rest mem events)) {h : ℕ}
    (hh : h < 2) (m : ℕ) :
    s.requestBlock out m (m + h) = streamBlock v.prng.key v.prng.counter (numblocks n + h) := by
  have hkey : s.prng.key = fun i =>
      keystream v.prng.key v.prng.counter (16 * numblocks n + i.val) := by
    rw [hs.prng]
    rfl
  rw [Kernel.requestBlock, if_neg (by omega), Nat.add_sub_cancel_left, streamBlock]
  congr 1
  funext j
  have hj := j.isLt
  rw [byteAt_of_lt _ (by omega), hkey, ← keystream_block, Nat.mul_add, Nat.add_assoc]

/-- The whole blocks of the output are the first of the stream, and the key is the two after
the last block, whether that one is whole or not. -/
theorem prngranddata_blocks (hs : Sees s v) (hfree : v.free = a :: b :: q :: rest)
    (hout : out ∉ v.free) (hc : v.prng.counter.c0 ≠ 0) (hn : n ≤ 4096)
    (hc' : (Counter.incrctr^[numblocks n] v.prng.counter).c0 ≠ 0) :
    Returns (prngranddata n (some out)) s fun _ s' =>
      (∀ i < n / 16, s'.requestBlock out (n / 16) i =
        streamBlock v.prng.key v.prng.counter i) ∧
      ∀ h < 2, s'.requestBlock out (n / 16) (n / 16 + h) =
        streamBlock v.prng.key v.prng.counter (numblocks n + h) := by
  rcases Nat.eq_zero_or_pos n with rfl | hpos
  · rw [prngranddata_eq (by omega)]
    refine (fillOutput_zero hs hfree hout hc).bind fun _ s₁ h₁ => ?_
    obtain ⟨mem, -, h₁⟩ := h₁
    refine (rekey_sees h₁ rfl hc).mono fun _ s₂ h₂ => ?_
    obtain ⟨mem', -, h₂⟩ := h₂
    have h₂ := View.rekeyed_filled v 0 _ mem mem' _ ▸ h₂
    exact ⟨fun i hi => absurd hi (by omega), fun h hh => requestBlock_key h₂ hh _⟩
  · refine (prngranddata_sees hs hfree hout hc hpos hn hc').mono fun _ s' h' => ?_
    obtain ⟨mem, h0, -, hdata, h'⟩ := h'
    refine ⟨fun i hi => ?_, fun h hh => requestBlock_key h' hh _⟩
    have hs' : s'.heap.mem = mem := h'.mem
    rw [Kernel.requestBlock, if_pos hi]
    refine blockAt_of_entry (p := q) ?_ fun j => ?_
    · rwa [hs', Nat.div_eq_of_lt (by omega)]
    · have hj := j.isLt
      rw [hs', Nat.mod_eq_of_lt (by omega), byteAt_of_lt _ (by omega), hdata _ (by simp only; omega)]

theorem prngranddata_unseeded (hs : Sees s v) (hfree : v.free = a :: b :: q :: rest)
    (hout : out ∉ v.free) (hc : v.prng.counter.c0 ≠ 0) (hn : n ≤ 4096)
    (hc' : (Counter.incrctr^[numblocks n] v.prng.counter).c0 = 0) :
    Stops (prngranddata n (some out)) s fun e _ =>
      e = .panic "prnggenblocks: called with non-seeded generator." := by
  rcases Nat.eq_zero_or_pos n with rfl | hpos
  · exact absurd hc' hc
  · rw [prngranddata_eq (by omega)]
    refine (fillOutput_sees hs hfree hout hc hpos hn).stops_bind fun _ s₁ h₁ => ?_
    obtain ⟨mem, -, -, -, h₁⟩ := h₁
    exact (rekey_unseeded h₁ rfl hc').mono fun _ _ h => h.1

theorem prngranddata_long (hs : s.Unlocked) (hout : out ∉ s.heap.freelist.pages)
    (hc : s.prng.counter.c0 ≠ 0) (hn : 4096 < n) (hn' : n ≤ 2 ^ 20)
    (hfree : pagesNeeded n ≤ s.heap.freelist.pages.length) :
    Stops (prngranddata n (some out)) s fun e _ => e = .undefined .outOfPage := by
  rw [pagesNeeded, ← numblocks_pages] at hfree
  have hceil := numblocks_pages n
  obtain ⟨pages, q, q₂, rest, hl, hlen⟩ :=
    exists_split (k := (numblocks n + 255) / 256 + 1) (l := s.heap.freelist.pages) (by omega)
  obtain ⟨a, pages, rfl⟩ := List.exists_cons_of_length_eq_add_one hlen
  rw [prngranddata_eq hn']
  exact (fillOutput_stops (v := s.view) ⟨hs, rfl⟩ hl hout hc hn hn' (Nat.succ.inj hlen)).bind

end Blocks

def DistinctRequest (s : Kernel L) (output : PageAddr L) (size : ℕ) : Prop :=
  Returns (prngranddata size (some output)) s fun _ s' =>
    Distinct (s'.requestBlock output (size / 16)) (size / 16 + 2)

theorem distinctRequest_of_le {s : Kernel L} {out a b q : PageAddr L} {rest : List (PageAddr L)}
    {n : ℕ} (hs : s.Unlocked) (hfree : s.heap.freelist.pages = a :: b :: q :: rest)
    (hout : out ∉ s.heap.freelist.pages) (hc : s.prng.counter.c0 ≠ 0) (hn : n ≤ 4096)
    (hc' : (Counter.incrctr^[numblocks n] s.prng.counter).c0 ≠ 0) : DistinctRequest s out n := by
  refine (prngranddata_blocks (v := s.view) ⟨hs, rfl⟩ hfree hout hc hn hc').mono
    fun _ s' h i j hij hj => ?_
  obtain ⟨hdata, hkey⟩ := h
  have hle := numblocks_le_256 hn
  have hdiv : n / 16 ≤ numblocks n := by
    have := le_numblocks n
    omega
  -- The place of each block in the stream grows with its place in the request.
  have hplace (i : ℕ) (hi : i < n / 16 + 2) : ∃ k, s'.requestBlock out (n / 16) i =
      streamBlock s.prng.key s.prng.counter k ∧
      k = if i < n / 16 then i else numblocks n + (i - n / 16) := by
    refine ⟨_, ?_, rfl⟩
    split_ifs with hlt
    · exact hdata i hlt
    · have h := hkey (i - n / 16) (by omega)
      rwa [Nat.add_sub_cancel' (not_lt.mp hlt)] at h
  obtain ⟨k, hk, hki⟩ := hplace i (by omega)
  obtain ⟨l, hl, hlj⟩ := hplace j hj
  rw [hk, hl]
  refine streamBlock_ne _ _ ?_ ?_ <;> split_ifs at hki hlj <;> omega

theorem request_blocks_distinct (s : Kernel L) (arr output : PageAddr L) (n size : ℕ)
    (hs : s.Unlocked) (hc : s.prng.counter.c0 ≠ 0) (hn : n ≤ 65536 + 2) (hsize : size ≤ 2 ^ 20)
    (harr : arr ∉ s.heap.freelist.pages) (hout : output ∉ s.heap.freelist.pages)
    (hfree : (n + 255) / 256 ≤ s.heap.freelist.pages.length)
    (hpages : pagesNeeded size ≤ s.heap.freelist.pages.length) :
    Returns (prnggenblocks n (some arr)) s (fun _ s' => Distinct (s'.blockAt arr) n) ∧
    (DistinctRequest s output size ↔
      size ≤ 4096 ∧ numblocks size ≠ s.prng.counter.wrapDistance) := by
  constructor
  · have hsplit := (List.take_append_drop ((n + 255) / 256) s.heap.freelist.pages).symm
    have hlen : (s.heap.freelist.pages.take ((n + 255) / 256)).length = (n + 255) / 256 := by
      rw [List.length_take]
      omega
    refine (prnggenblocks_sees ⟨hs, rfl⟩ hsplit harr hc (by omega) hlen).mono fun _ s' h' => ?_
    intro i j hij hj
    rw [blockAt_of_generated h' hlen (by omega), blockAt_of_generated h' hlen hj]
    exact streamBlock_ne _ _ hij (by omega)
  · have hblocks := numblocks_le (n := size) (by omega)
    have hwrap := Counter.iterate_c0_eq_zero_iff (n := numblocks size) hc (by
      rw [Int.toNat_natCast] at hblocks
      omega)
    rcases Nat.lt_or_ge 4096 size with hlong | hshort
    · refine iff_of_false ?_ fun h => by omega
      exact (prngranddata_long hs hout hc hlong hsize hpages).not_returns
    obtain ⟨pages, b, q, rest, hl, hlen⟩ :=
      exists_split (k := 1) (l := s.heap.freelist.pages) (by unfold pagesNeeded at hpages; omega)
    obtain ⟨a, rfl⟩ := List.length_eq_one_iff.mp hlen
    constructor
    · refine fun h => ⟨hshort, fun hw => ?_⟩
      exact (prngranddata_unseeded (v := s.view) ⟨hs, rfl⟩ hl hout hc hshort
        (hwrap.mpr hw)).not_returns h
    · exact fun h => distinctRequest_of_le hs hl hout hc hshort (mt hwrap.mp h.2)

theorem request_blocks_distinct_atRest :
    Returns (prnggenblocks 300 (some (Layout.page 0)))
      (Kernel.atRest Prng.seeded FreeList.least)
      (fun _ s' => Distinct (s'.blockAt (Layout.page 0)) 300) ∧
    (DistinctRequest (Kernel.atRest Prng.seeded FreeList.least) (Layout.page 0) 100 ↔
      100 ≤ 4096 ∧ numblocks 100 ≠ Prng.seeded.counter.wrapDistance) :=
  request_blocks_distinct (Kernel.atRest Prng.seeded FreeList.least) (Layout.page 0)
    (Layout.page 0) 300 100 (fun _ => rfl) (by decide) (by decide) (by decide)
    FreeList.page_zero_notMem FreeList.page_zero_notMem (by decide) (by decide)

theorem not_distinctRequest_twoPages :
    ¬ DistinctRequest (Kernel.atRest Prng.seeded FreeList.least) (Layout.page 0) 4128 :=
  (prngranddata_long (s := Kernel.atRest Prng.seeded FreeList.least) (fun _ => rfl)
    FreeList.page_zero_notMem (by decide) (by decide) (by decide) (by decide)).not_returns

end Xv6Prng
