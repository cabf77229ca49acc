import Xv6Prng.Prng

/-!
# What `prnggenblocks` writes

`prnggenblocks n` takes one page for every 256 blocks, enters it in the page of pointers
and fills it with the next 4096 bytes of the keystream; the last page is zero past
`16 * n` bytes. `GenMem` describes the memory after `m` pages have been opened and `b`
blocks written.
-/

namespace Xv6Prng

open ByteWords Halting Ownership Function

variable {L : Layout}

def keystream (key : Buffer 32) (c : Counter) (k : ℕ) : Byte :=
  CounterMode.byte (encryptCounter key) Counter.incrctr c k

def cipherBlocks (key : Buffer 32) (c : Counter) (n : ℕ) : List Aes.Block :=
  CounterMode.blocks (encryptCounter key) Counter.incrctr c n

theorem keystream_block (key : Buffer 32) (c : Counter) (b : ℕ) (j : Fin 16) :
    keystream key c (16 * b + j.val) = (encryptCounter key (Counter.incrctr^[b] c)).get j := by
  rw [keystream, CounterMode.byte_of_block, CounterMode.block]

structure GenMem (key : Buffer 32) (c : Counter) (arr : PageAddr L) (pages : List (PageAddr L))
    (m b : ℕ) (mem₀ mem : PageAddr L → Page) : Prop where
  entry : ∀ k p, k < m → pages[k]? = some p → loadWord (mem arr) k = p.val
  later : ∀ k, m ≤ k → k < 1024 → loadWord (mem arr) k = loadWord (mem₀ arr) k
  data : ∀ k p, k < m → pages[k]? = some p → ∀ o : Fin 4096,
    mem p o = if 4096 * k + o.val < 16 * b then keystream key c (4096 * k + o.val) else 0
  other : ∀ q, q ≠ arr → q ∉ pages → mem q = mem₀ q

section Memory

variable {key : Buffer 32} {c : Counter} {arr p : PageAddr L} {pages : List (PageAddr L)}
  {m b : ℕ} {mem₀ mem : PageAddr L → Page}

theorem GenMem.refl (key : Buffer 32) (c : Counter) (arr : PageAddr L)
    (pages : List (PageAddr L)) (mem : PageAddr L → Page) :
    GenMem key c arr pages 0 0 mem mem where
  entry k p hk := by omega
  later _ _ _ := rfl
  data k p hk := by omega
  other _ _ _ := rfl

theorem getElem?_inj {k l : ℕ} (hn : pages.Nodup) (hk : pages[k]? = some p)
    (hl : pages[l]? = some p) : k = l := by
  obtain ⟨hk', rfl⟩ := List.getElem?_eq_some_iff.mp hk
  obtain ⟨hl', he⟩ := List.getElem?_eq_some_iff.mp hl
  exact (hn.getElem_inj_iff.mp he).symm

theorem GenMem.openPage (h : GenMem key c arr pages m (256 * m) mem₀ mem) (hn : pages.Nodup)
    (harr : arr ∉ pages) (hm : m < 1024) (hp : pages[m]? = some p) :
    GenMem key c arr pages (m + 1) (256 * m) mem₀
      (update (update mem p fun _ => 0) arr
        (storeWord (update mem p (fun _ => 0) arr) m p.val)) := by
  have hpm : p ∈ pages := List.mem_of_getElem? hp
  have hpa : arr ≠ p := fun he => harr (he ▸ hpm)
  have hne {q : PageAddr L} (hq : q ∈ pages) : q ≠ arr := fun he => harr (he ▸ hq)
  rw [update_of_ne hpa]
  constructor
  · intro k q hk hq
    rw [update_self]
    by_cases hkm : k = m
    · subst hkm
      obtain rfl := Option.some.inj (hp.symm.trans hq)
      exact loadWord_storeWord_self _ _ (by omega)
    · rw [loadWord_storeWord_ne _ _ (by omega) hkm]
      exact h.entry k q (by omega) hq
  · intro k hk hlt
    rw [update_self, loadWord_storeWord_ne _ _ (by omega) (by omega)]
    exact h.later k (by omega) hlt
  · intro k q hk hq o
    have ho := o.isLt
    rw [update_of_ne (hne (List.mem_of_getElem? hq))]
    by_cases hkm : k = m
    · subst hkm
      obtain rfl := Option.some.inj (hp.symm.trans hq)
      rw [update_self, if_neg (by omega)]
    · have hqp : q ≠ p := fun he => hkm (getElem?_inj hn (he ▸ hq) hp)
      rw [update_of_ne hqp]
      exact h.data k q (by omega) hq o
  · intro q hqa hqp
    have hqne : q ≠ p := fun he => hqp (he ▸ hpm)
    rw [update_of_ne hqa, update_of_ne hqne]
    exact h.other q hqa hqp

theorem GenMem.putBlock (h : GenMem key c arr pages m b mem₀ mem) (hn : pages.Nodup)
    (harr : arr ∉ pages) (hp : pages[b / 256]? = some p) :
    GenMem key c arr pages m (b + 1) mem₀ (update mem p
      (putBytes (mem p) (16 * b % 4096) (encryptCounter key (Counter.incrctr^[b] c)).get)) := by
  have hpm : p ∈ pages := List.mem_of_getElem? hp
  have hpa : arr ≠ p := fun he => harr (he ▸ hpm)
  constructor
  · intro k q hk hq
    rw [update_of_ne hpa]
    exact h.entry k q hk hq
  · intro k hk hlt
    rw [update_of_ne hpa]
    exact h.later k hk hlt
  · intro k q hk hq o
    have ho := o.isLt
    by_cases hkb : k = b / 256
    · subst hkb
      obtain rfl := Option.some.inj (hp.symm.trans hq)
      rw [update_self, putBytes]
      split_ifs with hin hlt hlt
      · have hk' : 4096 * (b / 256) + o.val = 16 * b + (o.val - 16 * b % 4096) := by omega
        rw [hk', keystream_block key c b ⟨o.val - 16 * b % 4096, by omega⟩]
      · omega
      · rw [h.data _ _ hk hq, if_pos (by omega)]
      · rw [h.data _ _ hk hq, if_neg (by omega)]
    · have hqp : q ≠ p := fun he => hkb (getElem?_inj hn (he ▸ hq) hp)
      rw [update_of_ne hqp, h.data k q hk hq]
      congr 1
      rw [eq_iff_iff]
      omega
  · intro q hqa hqp
    have hqne : q ≠ p := fun he => hqp (he ▸ hpm)
    rw [update_of_ne hqne]
    exact h.other q hqa hqp

end Memory

def View.gen (v : View L) (pages rest : List (PageAddr L)) (m b : ℕ)
    (mem : PageAddr L → Page) : View L where
  prng := v.prng.setCounter (Counter.incrctr^[b] v.prng.counter)
  ticks := v.ticks
  user := v.user
  free := pages.drop m ++ rest
  mem := mem
  trace := v.trace ++ (pages.take m).map fun p => .take p.val

def Generated (v : View L) (arr : PageAddr L) (pages rest : List (PageAddr L)) (m b : ℕ)
    (s : Kernel L) : Prop :=
  ∃ mem, GenMem v.prng.key v.prng.counter arr pages m b v.mem mem ∧
    Sees s (v.gen pages rest m b mem)

section Loop

variable {s : Kernel L} {v : View L} {arr p : PageAddr L} {pages rest : List (PageAddr L)}
  {m b n : ℕ}

theorem View.gen_take (hp : pages[m]? = some p) (mem mem' : PageAddr L → Page) :
    ((v.gen pages rest m b mem).take p (pages.drop (m + 1) ++ rest)).setMem mem' =
      v.gen pages rest (m + 1) b mem' := by
  obtain ⟨hm, rfl⟩ := List.getElem?_eq_some_iff.mp hp
  simp only [View.gen, View.take, View.setMem, List.take_succ_eq_append_getElem hm,
    List.map_append, List.append_assoc, List.map_cons, List.map_nil]

theorem View.gen_zero (hfree : v.free = pages ++ rest) : v.gen pages rest 0 0 v.mem = v := by
  obtain ⟨prng, ticks, user, free, mem, trace⟩ := v
  obtain rfl : free = pages ++ rest := hfree
  simp [View.gen, Prng.setCounter]

theorem Sees.advance (h : Sees s v) :
    Sees s.advance (v.setPrng (v.prng.setCounter v.prng.counter.incrctr)) := by
  rw [Kernel.advance, h.prng]
  exact h.setPrng _

theorem View.gen_advance (mem mem' : PageAddr L → Page) :
    ((v.gen pages rest m b mem).setMem mem').setPrng
        ((v.prng.setCounter (Counter.incrctr^[b] v.prng.counter).incrctr)) =
      v.gen pages rest m (b + 1) mem' := by
  simp only [View.gen, View.setMem, View.setPrng, iterate_succ_apply']

theorem blockPage_sees {pgwrittento : Word} (hs : Generated v arr pages rest ((b + 255) / 256) b s)
    (hn : pages.Nodup) (harr : arr ∉ pages) (hb : b < 262144)
    (hp : pages[b / 256]? = some p) (hpg : b % 256 ≠ 0 → pgwrittento = p.val) :
    Returns (blockPage arr b pgwrittento) s fun r s' =>
      r = p.val ∧ Generated v arr pages rest (b / 256 + 1) b s' := by
  obtain ⟨mem, hmem, hsees⟩ := hs
  unfold blockPage
  split_ifs with h0
  · -- The block starts a page: `b` is `256 * m`.
    obtain ⟨m, rfl⟩ : ∃ m, b = 256 * m := ⟨b / 256, by omega⟩
    have hm : (256 * m + 255) / 256 = m := by omega
    have hdiv : 256 * m / 256 = m := by omega
    rw [hm] at hmem hsees
    rw [hdiv] at hp ⊢
    obtain ⟨hlt, rfl⟩ := List.getElem?_eq_some_iff.mp hp
    have hfree : (v.gen pages rest m (256 * m) mem).free =
        pages[m] :: (pages.drop (m + 1) ++ rest) := by
      rw [← List.cons_append, List.getElem_cons_drop]
      rfl
    refine (zalloc_sees _ hsees hfree).bind fun r s₁ h₁ => ?_
    obtain ⟨rfl, h₁⟩ := h₁
    have h16 : 16 * (256 * m) / 4096 = m := by omega
    rw [h16]
    refine (storePtr_sees h₁ arr (by omega) _).bind fun _ s₂ h₂ => ?_
    refine ⟨_, s₂, rfl, rfl, _, hmem.openPage hn harr (by omega) hp, ?_⟩
    rw [← View.gen_take hp mem]
    exact h₂
  · have hm : (b + 255) / 256 = b / 256 + 1 := by omega
    rw [hm] at hmem hsees
    exact ⟨pgwrittento, s, rfl, hpg (by omega), mem, hmem, hsees⟩

theorem genBlock_sees {pgwrittento : Word}
    (hs : Generated v arr pages rest ((b + 255) / 256) b s)
    (hn : pages.Nodup) (harr : arr ∉ pages) (hb : b < 262144)
    (hp : pages[b / 256]? = some p) (hpg : b % 256 ≠ 0 → pgwrittento = p.val) :
    Returns (genBlock arr b pgwrittento) s fun r s' =>
      r = p.val ∧ Generated v arr pages rest (b / 256 + 1) (b + 1) s' := by
  unfold genBlock
  refine (blockPage_sees hs hn harr hb hp hpg).bind fun r s₁ h₁ => ?_
  obtain ⟨rfl, mem, hmem, h₁⟩ := h₁
  have hkey : s₁.prng.key = v.prng.key := by
    rw [h₁.prng]
    rfl
  have hctr : s₁.prng.counter = Counter.incrctr^[b] v.prng.counter := by
    rw [h₁.prng]
    rfl
  apply returns_get_bind
  rw [hkey, hctr]
  refine (storeBytes_sees h₁ p (by omega) _).bind fun _ s₂ h₂ => ?_
  refine returns_modify_bind (returns_pure ⟨rfl, _, hmem.putBlock hn harr hp, ?_⟩)
  rw [← View.gen_advance mem]
  exact h₂.advance

theorem prnggenblocks_sees (hs : Sees s v) (hfree : v.free = pages ++ rest) (harr : arr ∉ v.free)
    (hc : v.prng.counter.c0 ≠ 0) (hn : n ≤ 262144) (hlen : pages.length = (n + 255) / 256) :
    Returns (prnggenblocks n (some arr)) s fun _ s' =>
      Generated v arr pages rest pages.length n s' := by
  have hnodup : pages.Nodup := (List.nodup_append.mp (hfree ▸ hs.free_nodup)).1
  have harr' : arr ∉ pages := fun h => harr (by rw [hfree]; exact List.mem_append_left _ h)
  apply returns_get_bind
  rw [hs.prng, if_neg hc]
  refine Returns.bind (forLoop_returns (fun b pg s' =>
    Generated v arr pages rest ((b + 255) / 256) b s' ∧
      ∀ p, pages[b / 256]? = some p → b % 256 ≠ 0 → pg = p.val) ?_ ?_) fun _ s' h' => ?_
  · refine ⟨⟨v.mem, GenMem.refl _ _ _ _ _, ?_⟩, fun p hp h => absurd rfl h⟩
    rwa [View.gen_zero hfree]
  · intro b pg s' _ hb ⟨hgen, hpg⟩
    have hlt : b / 256 < pages.length := by omega
    have hp : pages[b / 256]? = some pages[b / 256] := List.getElem?_eq_getElem hlt
    refine (genBlock_sees hgen hnodup harr' (by omega) hp (hpg _ hp)).mono fun r s'' h'' => ?_
    obtain ⟨rfl, hgen'⟩ := h''
    have hm : (b + 1 + 255) / 256 = b / 256 + 1 := by omega
    refine ⟨by rwa [hm], fun p hp' h => ?_⟩
    have hdiv : (b + 1) / 256 = b / 256 := by omega
    rw [hdiv, hp] at hp'
    rw [Option.some.inj hp']
  · apply returns_pure
    rw [hlen]
    simpa using h'.1

end Loop

def View.genPages (v : View L) (arr : PageAddr L) (pages rest : List (PageAddr L)) (n : ℕ)
    (mem : PageAddr L → Page) : View L where
  prng := v.prng.setCounter (Counter.incrctr^[n] v.prng.counter)
  ticks := v.ticks
  user := v.user
  free := rest
  mem := mem
  trace := v.trace ++ (arr :: pages).map fun p => .take p.val

structure GenPagesMem (v : View L) (arr : PageAddr L) (pages : List (PageAddr L)) (n : ℕ)
    (mem : PageAddr L → Page) : Prop where
  entry : ∀ k p, pages[k]? = some p → loadWord (mem arr) k = p.val
  unused : ∀ k, pages.length ≤ k → k < 1024 → loadWord (mem arr) k = 0
  data : ∀ k p, pages[k]? = some p → ∀ o : Fin 4096, mem p o =
    if 4096 * k + o.val < 16 * n then keystream v.prng.key v.prng.counter (4096 * k + o.val) else 0
  other : ∀ q, q ≠ arr → q ∉ pages → mem q = v.mem q

theorem genPages_sees {s : Kernel L} {v : View L} {arr : PageAddr L}
    {pages rest : List (PageAddr L)} {n : ℕ} (hs : Sees s v)
    (hfree : v.free = arr :: (pages ++ rest)) (hc : v.prng.counter.c0 ≠ 0) (hn : n ≤ 262144)
    (hlen : pages.length = (n + 255) / 256) :
    Returns (genPages n) s fun r s' => r = arr ∧
      ∃ mem, GenPagesMem v arr pages n mem ∧ Sees s' (v.genPages arr pages rest n mem) := by
  have harr : arr ∉ pages ++ rest := (List.nodup_cons.mp (hfree ▸ hs.free_nodup)).1
  refine (zalloc_sees _ hs hfree).bind fun r s₁ h₁ => ?_
  obtain ⟨rfl, h₁⟩ := h₁
  refine (prnggenblocks_sees h₁ rfl harr hc hn hlen).bind fun _ s₂ h₂ => returns_pure ⟨rfl, ?_⟩
  obtain ⟨mem, hmem, h₂⟩ := h₂
  have hlt {k : ℕ} {p : PageAddr L} (hp : pages[k]? = some p) : k < pages.length :=
    (List.getElem?_eq_some_iff.mp hp).1
  refine ⟨mem, ⟨fun k p hp => hmem.entry k p (hlt hp) hp, fun k hk hk' => ?_,
    fun k p hp => hmem.data k p (hlt hp) hp, fun q hqa hqp => ?_⟩, h₂.unlocked,
    h₂.view_eq.trans ?_⟩
  · have hclear : ((v.take r (pages ++ rest)).writePage r fun _ => 0).mem r = fun _ => 0 :=
      update_self ..
    rw [hmem.later k hk hk', hclear, loadWord_zero]
  · rw [hmem.other q hqa hqp]
    exact update_of_ne hqa _ _
  · ext1
    · rfl
    · rfl
    · rfl
    · simp [View.gen, View.genPages]
    · rfl
    · simp [View.gen, View.genPages, View.writePage, View.take]

theorem genPages_unseeded {s : Kernel L} {v : View L} {arr : PageAddr L}
    {rest : List (PageAddr L)} (n : ℕ) (hs : Sees s v) (hfree : v.free = arr :: rest)
    (hc : v.prng.counter.c0 = 0) :
    Stops (genPages (L := L) n) s fun e s' =>
      e = .panic "prnggenblocks: called with non-seeded generator." ∧
        s'.heap.trace = v.trace ++ [.take arr.val] := by
  refine (zalloc_sees _ hs hfree).stops_bind fun r s₁ h₁ => ?_
  obtain ⟨rfl, h₁⟩ := h₁
  have hprng : s₁.prng = v.prng := h₁.prng
  refine Stops.bind (stops_get_bind ?_)
  rw [hprng, if_pos hc]
  exact stops_throw ⟨rfl, congrArg View.trace h₁.view_eq⟩

end Xv6Prng
