import Xv6Prng.Prng

/-!
# What the hash reads

`init` leaves a buffer of `bufsize` bytes: the words of the message, and after them whatever
the page held. The digest is a function of those words alone. The last word of the message is
filled even when the size is not a multiple of four, with the bytes that follow the message,
and the sign of a byte covers those before it in its word.
-/

namespace Xv6Prng

open ByteWords Halting

variable {data data' : Buffer 4096} {p q : Page}

namespace Hash

def messageWords (size : ℤ) : ℕ := (size.toNat + 3) / 4

def preprocessed (data : Buffer 4096) (size : ℤ) (page : Page) : ℕ × List Word :=
  let words := (bufsize size).toNat / 4
  (words, (List.range words).map (loadWord (fill data size page)))

section Sizes

variable {size : ℤ}

theorem bufsize_of_sizeOk (h : sizeOk size) :
    ∃ n : ℕ, bufsize size = (512 * n : ℕ) ∧ 512 * n < PGSIZE ∧ size < (512 * n : ℕ) := by
  obtain ⟨h0, h1⟩ := (sizeOk_iff size).mp h
  refine ⟨(size / 512 + 1).toNat, ?_, ?_, ?_⟩
  · rw [bufsize, Int.tmod_eq_emod_of_nonneg h0]
    omega
  · rw [PGSIZE]
    omega
  · omega

end Sizes

theorem loadWord_foldl_storeWord (f : ℕ → Word) (page : Page) (n : ℕ) {k : ℕ}
    (hk : 4 * k + 4 ≤ 4096) :
    loadWord ((List.range n).foldl (fun p i => storeWord p i (f i)) page) k =
      if k < n then f k else loadWord page k := by
  induction n with
  | zero => rfl
  | succ n ih =>
    rw [List.range_succ, List.foldl_append, List.foldl_cons, List.foldl_nil]
    by_cases hkn : k = n
    · rw [hkn, if_pos (Nat.lt_succ_self n), loadWord_storeWord_self _ _ (hkn ▸ hk)]
    · rw [loadWord_storeWord_ne _ _ hk hkn, ih]
      exact if_congr (by omega) rfl rfl

theorem loadWord_fill (data : Buffer 4096) (size : ℤ) (page : Page) {k : ℕ}
    (hk : 4 * k + 4 ≤ 4096) : loadWord (fill data size page) k =
      if k < messageWords size then messageWord data (4 * k) else loadWord page k :=
  loadWord_foldl_storeWord (fun i => messageWord data (4 * i)) page _ hk

/-- What a word of `init` shows of byte `i`: ones if a later byte of the word is negative. -/
def shown (data : Buffer 4096) (i : ℕ) : Byte :=
  if (List.range' (i + 1) (3 - i % 4)).any fun j => (byteAt data j).msb then 0xFF
  else byteAt data i

theorem getLsbD_shown (c : Bool) (b : Byte) (j : ℕ) :
    (if c then 0xFF else b : Byte).getLsbD j = ((c && decide (j < 8)) || b.getLsbD j) := by
  cases c with
  | false => simp
  | true =>
    have hones : (0xFF : Byte) = BitVec.allOnes 8 := rfl
    rw [if_pos rfl, hones, BitVec.getLsbD_allOnes]
    by_cases hj : j < 8
    · simp [hj]
    · simp [hj, BitVec.getLsbD_of_ge b j (by omega)]

theorem messageWord_eq (data : Buffer 4096) (k : ℕ) :
    messageWord data (4 * k) = ofBytes (shown data (4 * k + 3)) (shown data (4 * k + 2))
      (shown data (4 * k + 1)) (shown data (4 * k)) := by
  have hmod : 4 * k % 4 = 0 ∧ (4 * k + 1) % 4 = 1 ∧ (4 * k + 2) % 4 = 2 ∧ (4 * k + 3) % 4 = 3 := by
    omega
  obtain ⟨h₀, h₁, h₂, h₃⟩ := hmod
  apply BitVec.eq_of_getLsbD_eq
  intro i hi
  simp only [messageWord, ofBytes, shown, h₀, h₁, h₂, h₃, List.range'_succ, List.range'_zero,
    List.any_cons, List.any_nil, Nat.reduceSub, Bool.or_false, getLsbD_shown, BitVec.getLsbD_or,
    BitVec.getLsbD_append, BitVec.getLsbD_shiftLeft, BitVec.getLsbD_signExtend]
  grind

theorem shown_congr {m i : ℕ} (h : ∀ j < 4 * m, byteAt data j = byteAt data' j) (hi : i < 4 * m) :
    shown data i = shown data' i := by
  have hany : ((List.range' (i + 1) (3 - i % 4)).any fun j => (byteAt data j).msb) =
      (List.range' (i + 1) (3 - i % 4)).any fun j => (byteAt data' j).msb := by
    rw [Bool.eq_iff_iff, List.any_eq_true, List.any_eq_true]
    refine exists_congr fun j => and_congr_right fun hj => ?_
    rw [List.mem_range'_1] at hj
    rw [h j (by omega)]
  rw [shown, shown, hany, h i hi]

/-- Byte `i` of the buffer, the first byte of a word its highest: of the message and what follows
it in its last word, and then of the page. -/
def bufferByte (data : Buffer 4096) (size : ℤ) (page : Page) (i : ℕ) : Byte :=
  if i < 4 * messageWords size then shown data i else byteAt page (4 * (i / 4) + (3 - i % 4))

theorem loadWord_fill_bytes (data : Buffer 4096) (size : ℤ) (page : Page) {k : ℕ}
    (hk : 4 * k + 4 ≤ 4096) : loadWord (fill data size page) k =
      ofBytes (bufferByte data size page (4 * k + 3)) (bufferByte data size page (4 * k + 2))
        (bufferByte data size page (4 * k + 1)) (bufferByte data size page (4 * k)) := by
  rw [loadWord_fill _ _ _ hk]
  by_cases hword : k < messageWords size
  · have hbyte (i : ℕ) (hi : i / 4 = k) : bufferByte data size page i = shown data i :=
      if_pos (by omega)
    rw [if_pos hword, messageWord_eq, hbyte (4 * k + 3) (by omega), hbyte (4 * k + 2) (by omega),
      hbyte (4 * k + 1) (by omega), hbyte (4 * k) (by omega)]
  · have hbyte (i j : ℕ) (hi : i = 4 * k + j) (hj : j < 4) :
        bufferByte data size page i = byteAt page (4 * k + (3 - j)) := by
      have hpos : 4 * (i / 4) + (3 - i % 4) = 4 * k + (3 - j) := by omega
      rw [bufferByte, if_neg (by omega), hpos]
    rw [if_neg hword, hbyte (4 * k + 3) 3 rfl (by omega), hbyte (4 * k + 2) 2 rfl (by omega),
      hbyte (4 * k + 1) 1 rfl (by omega), hbyte (4 * k) 0 rfl (by omega)]
    rfl

theorem ofBytes_inj {a b c d a' b' c' d' : Byte} (h : ofBytes a b c d = ofBytes a' b' c' d') :
    a = a' ∧ b = b' ∧ c = c' ∧ d = d' := by
  obtain ⟨h₀, h₁, h₂, h₃⟩ := byteOf_ofBytes a b c d
  obtain ⟨h₀', h₁', h₂', h₃'⟩ := byteOf_ofBytes a' b' c' d'
  rw [h] at h₀ h₁ h₂ h₃
  exact ⟨h₀.symm.trans h₀', h₁.symm.trans h₁', h₂.symm.trans h₂', h₃.symm.trans h₃'⟩

theorem preprocessed_eq_iff {size size' : ℤ} {page page' : Page} (hsize : sizeOk size)
    (hsize' : sizeOk size') : preprocessed data size page = preprocessed data' size' page' ↔
      bufsize size = bufsize size' ∧ ∀ i : ℕ, (i : ℤ) < bufsize size →
        bufferByte data size page i = bufferByte data' size' page' i := by
  obtain ⟨n, hn, hlt, -⟩ := bufsize_of_sizeOk hsize
  obtain ⟨n', hn', -, -⟩ := bufsize_of_sizeOk hsize'
  simp only [PGSIZE] at hlt
  constructor
  · intro heq
    obtain ⟨hwords, hbuffer⟩ := Prod.mk.inj heq
    have hbuf : bufsize size = bufsize size' := by omega
    refine ⟨hbuf, fun i hi => ?_⟩
    rw [← hbuf] at hbuffer
    have hword := List.map_inj_left.mp hbuffer (i / 4) (List.mem_range.mpr (by omega))
    rw [loadWord_fill_bytes _ _ _ (by omega), loadWord_fill_bytes _ _ _ (by omega)] at hword
    obtain ⟨h₃, h₂, h₁, h₀⟩ := ofBytes_inj hword
    obtain hm | hm | hm | hm : i = 4 * (i / 4) ∨ i = 4 * (i / 4) + 1 ∨ i = 4 * (i / 4) + 2 ∨
        i = 4 * (i / 4) + 3 := by omega
    all_goals
      rw [hm]
      assumption
  · rintro ⟨hbuf, hbytes⟩
    rw [preprocessed, preprocessed, ← hbuf]
    refine Prod.ext rfl (List.map_inj_left.mpr fun k hk => ?_)
    rw [List.mem_range] at hk
    rw [loadWord_fill_bytes _ _ _ (by omega), loadWord_fill_bytes _ _ _ (by omega),
      hbytes (4 * k) (by omega), hbytes (4 * k + 1) (by omega), hbytes (4 * k + 2) (by omega),
      hbytes (4 * k + 3) (by omega)]

section Words

variable {rot wide : Word → ℕ → Word} {f g : ℕ → Word}

theorem chunk_congr {c : ℕ} (h : ∀ i < 16, f (c + i) = g (c + i)) (v : State) :
    chunk rot f v c = chunk rot g v c := by
  have hfirst : (Array.ofFn fun i : Fin 16 => f (c + i.val)) =
      Array.ofFn fun i : Fin 16 => g (c + i.val) :=
    congrArg Array.ofFn (funext fun i => h i.val i.isLt)
  rw [chunk, chunk, schedule, schedule, hfirst]

theorem sha256internal_congr {words : ℕ} (hwords : words % 16 = 0)
    (h : ∀ k < words, f k = g k) :
    sha256internal wide f words = sha256internal wide g words := by
  rw [sha256internal, sha256internal, sha256With, sha256With]
  apply List.foldl_ext
  intro v i hi
  rw [List.mem_range] at hi
  exact chunk_congr (fun j hj => h _ (by omega)) v

theorem hashed_congr {size : ℤ} {page page' : Page} (hsize : sizeOk size)
    (h : preprocessed data size page = preprocessed data' size page') :
    hashed wide data size page = hashed wide data' size page' := by
  obtain ⟨n, hn, -, -⟩ := bufsize_of_sizeOk hsize
  rw [hashed, hashed, sha256internal_congr (by omega) fun k hk => ?_]
  exact List.map_inj_left.mp (Prod.mk.inj h).2 k (List.mem_range.mpr hk)

end Words

deriving instance DecidableEq for State

theorem sha256internal_succ (wide : Word → ℕ → Word) (f : ℕ → Word) (n : ℕ) :
    sha256internal wide f (16 * (n + 1)) =
      chunk (rotright wide) f (sha256internal wide f (16 * n)) (16 * n) := by
  have hsucc : (16 * (n + 1) + 15) / 16 = n + 1 := by omega
  have hn : (16 * n + 15) / 16 = n := by omega
  rw [sha256internal, sha256internal, sha256With, sha256With, hsucc, hn, List.range_succ,
    List.foldl_append]
  rfl

def zeroPage : Page := fun _ => 0

def zeroState : State where
  a := 2914540933
  b := 3901917791
  c := 1414942746
  d := 570216957
  e := 493301115
  f := 94567953
  g := 1218061215
  z := 4265426231

def lastOne (k : ℕ) : Word := if k = 127 then 1 else 0

theorem sha256internal_zero :
    sha256internal Layout.least.wide (fun _ => 0) (16 * 7) = zeroState := by
  decide +kernel

theorem chunk_zeroState_ne :
    (chunk (rotright Layout.least.wide) (fun _ => 0) zeroState (16 * 7)).a ≠
      (chunk (rotright Layout.least.wide) lastOne zeroState (16 * 7)).a := by
  decide +kernel

theorem loadWord_lastOne {k : ℕ} (hk : k < 128) :
    loadWord (storeWord zeroPage 127 1) k = lastOne k := by
  rw [lastOne]
  by_cases hlast : k = 127
  · rw [if_pos hlast, hlast, loadWord_storeWord_self _ _ (by omega)]
  · rw [if_neg hlast, loadWord_storeWord_ne _ _ (by omega) hlast]
    exact loadWord_zero k

theorem byteAt_zeroPage (i : ℕ) : byteAt zeroPage i = 0 := by
  rw [byteAt, load?]
  split <;> rfl

theorem messageWord_zero (i : ℕ) : messageWord zeroPage i = 0 := by
  simp only [messageWord, byteAt_zeroPage]
  decide

def tailOne : Buffer 4096 := fun i => if i.val = 511 then 1 else 0

theorem byteAt_tailOne {i : ℕ} (hi : i < 511) : byteAt tailOne i = byteAt zeroPage i := by
  rw [byteAt_of_lt _ (by omega), byteAt_of_lt _ (by omega), tailOne, if_neg (Nat.ne_of_lt hi)]
  rfl

theorem digest_ne_of_last_word {f g : ℕ → Word} (hf : ∀ k < 128, f k = 0)
    (hg : ∀ k < 128, g k = lastOne k) :
    digest (sha256internal Layout.least.wide f 128) ≠
      digest (sha256internal Layout.least.wide g 128) := by
  have hseven : sha256internal Layout.least.wide lastOne (16 * 7) = zeroState := by
    rw [← sha256internal_zero]
    exact sha256internal_congr rfl fun k hk => if_neg (by omega)
  have hsplit : 128 = 16 * (7 + 1) := rfl
  rw [sha256internal_congr rfl hf, sha256internal_congr rfl hg, hsplit, sha256internal_succ _ _ 7,
    sha256internal_succ _ _ 7, hseven, sha256internal_zero]
  intro heq
  apply chunk_zeroState_ne
  apply word_ext
  · exact congrFun heq 3
  · exact congrFun heq 2
  · exact congrFun heq 1
  · exact congrFun heq 0

/-- On a clear page two messages are kept apart exactly when their padded lengths differ or a
byte that shows does. -/
theorem preprocessed_ne {size size' : ℤ} (hsize : sizeOk size) (hsize' : sizeOk size') :
    preprocessed data size zeroPage ≠ preprocessed data' size' zeroPage ↔
      bufsize size ≠ bufsize size' ∨ ∃ i : ℕ, (i : ℤ) < bufsize size ∧
        bufferByte data size zeroPage i ≠ bufferByte data' size' zeroPage i := by
  rw [Ne, preprocessed_eq_iff hsize hsize', not_and_or]
  refine or_congr_right ?_
  simp only [not_forall, exists_prop, Ne]

def oneByte (b : Byte) : Buffer 4096 := fun i => if i.val = 0 then b else 0

theorem preprocessed_ne_oneByte :
    preprocessed (oneByte 0x61) 1 zeroPage ≠ preprocessed (oneByte 0xE2) 1 zeroPage :=
  (preprocessed_ne (by decide) (by decide)).mpr (Or.inr ⟨0, by decide, by decide⟩)

def messageOf (data : Buffer 4096) (size : ℤ) : List Byte :=
  (List.range size.toNat).map (byteAt data)

def signed (b : Byte) : Buffer 4096 :=
  fun i => if i.val < 3 then b else if i.val = 3 then 0x80 else 0

/-- Messages collide even when they have one length. -/
theorem not_preprocessed_injective :
    (¬ ∀ data data' : Buffer 4096, ∀ size size' : ℤ, sizeOk size → sizeOk size' →
      messageOf data size ≠ messageOf data' size' →
        preprocessed data size zeroPage ≠ preprocessed data' size' zeroPage) ∧
    ¬ ∀ data data' : Buffer 4096, ∀ size : ℤ, sizeOk size →
      messageOf data size ≠ messageOf data' size →
        preprocessed data size zeroPage ≠ preprocessed data' size zeroPage := by
  constructor
  · intro h
    -- no length is encoded: the empty message and one zero byte
    exact h zeroPage zeroPage 0 1 (by decide) (by decide) (by decide) (by decide +kernel)
  · intro h
    -- the sign of the last byte of a word covers the others
    exact h (signed 0) (signed 0xFF) 4 (by decide) (by decide) (by decide +kernel)

end Hash

open Hash

variable {L : Layout} {size : ℤ}

theorem sha256_run {s s' : Kernel L} {p : PageAddr L} (data : Buffer 4096)
    (hk : kalloc.run s = .ok (some p) s') (hsize : sizeOk size) :
    ∃ t, (sha256 data size).run s = .ok (hashed L.wide data size (s'.heap.mem p)) t := by
  rw [sha256, bind_ok hk, if_pos hsize, modify_bind, get_bind]
  refine ⟨s'.setHeap (s'.heap.write p (fill data size (s'.heap.mem p))), ?_⟩
  simp only [EStateM.run_pure, hashed, Kernel.setHeap_heap, Heap.write, Function.update_self]

theorem hashed_eq_of_run {s s' s'' : Kernel L} {p : PageAddr L} {out : Buffer 32}
    (hk : kalloc.run s = .ok (some p) s') (hsize : sizeOk size)
    (hrun : (sha256 data size).run s = .ok out s'') :
    hashed L.wide data size (s'.heap.mem p) = out := by
  obtain ⟨t, ht⟩ := sha256_run data hk hsize
  rw [hrun] at ht
  exact (EStateM.Result.ok.inj ht).1.symm

/-- What `init` reads beside the whole words of the message agrees: the word in which the
message ends, as it shows, and the page after it. -/
def SameTail (data data' : Buffer 4096) (size : ℤ) (page page' : Page) : Prop :=
  ∀ i : ℕ, size / 4 * 4 ≤ i → (i : ℤ) < bufsize size →
    bufferByte data size page i = bufferByte data' size page' i

/-- The buffers agree exactly when what is read beside the message does, and then the digests
do. -/
theorem sha256_depends_on_message {s s' t t' : Kernel L} {p q : PageAddr L} {size : ℤ}
    (hs : kalloc.run s = .ok (some p) s') (ht : kalloc.run t = .ok (some q) t')
    (hsize : sizeOk size) (hmessage : ∀ i : ℕ, (i : ℤ) < size → byteAt data i = byteAt data' i) :
    (preprocessed data size (s'.heap.mem p) = preprocessed data' size (t'.heap.mem q) ↔
      SameTail data data' size (s'.heap.mem p) (t'.heap.mem q)) ∧
    (SameTail data data' size (s'.heap.mem p) (t'.heap.mem q) →
      ∃ out s'' t'', (sha256 data size).run s = .ok out s'' ∧
        (sha256 data' size).run t = .ok out t'') := by
  have hiff : preprocessed data size (s'.heap.mem p) = preprocessed data' size (t'.heap.mem q) ↔
      SameTail data data' size (s'.heap.mem p) (t'.heap.mem q) := by
    rw [preprocessed_eq_iff hsize hsize, and_iff_right rfl]
    refine ⟨fun h i _ => h i, fun h i hi => ?_⟩
    by_cases hin : size / 4 * 4 ≤ i
    · exact h i hin hi
    · have h0 := ((sizeOk_iff size).mp hsize).1
      have hlt : i < 4 * (size.toNat / 4) := by omega
      rw [bufferByte, bufferByte, if_pos (by rw [messageWords]; omega),
        if_pos (by rw [messageWords]; omega)]
      exact shown_congr (fun j hj => hmessage j (by omega)) hlt
  refine ⟨hiff, fun htail => ?_⟩
  obtain ⟨s'', hs''⟩ := sha256_run data hs hsize
  obtain ⟨t'', ht''⟩ := sha256_run data' ht hsize
  rw [← hashed_congr hsize (hiff.mpr htail)] at ht''
  exact ⟨_, s'', t'', hs'', ht''⟩

/-- The digest is a function of the message when the memory after the message is fixed: any two
pages that `kalloc` may return give one digest. -/
def PageIndependent : Prop :=
  ∀ (s s' t t' : Kernel .least) (p q : PageAddr .least) (data : Buffer 4096) (size : ℤ),
    kalloc.run s = .ok (some p) s' → kalloc.run t = .ok (some q) t' → sizeOk size →
      ∃ out s'' t'', (sha256 data size).run s = .ok out s'' ∧
        (sha256 data size).run t = .ok out t''

def TailIndependent : Prop :=
  ∀ (s s' : Kernel .least) (p : PageAddr .least) (data data' : Buffer 4096) (size : ℤ),
    kalloc.run s = .ok (some p) s' → sizeOk size →
    (∀ i : ℕ, (i : ℤ) < size → byteAt data i = byteAt data' i) →
      ∃ out s'' t'', (sha256 data size).run s = .ok out s'' ∧
        (sha256 data' size).run s = .ok out t''

def Kernel.onPage (page : Page) : Kernel .least :=
  (Kernel.atRest Prng.initial FreeList.least).setHeap
    { freelist := FreeList.least, mem := fun _ => page, trace := [] }

theorem kalloc_onPage (page : Page) :
    ∃ p s', kalloc.run (Kernel.onPage page) = .ok (some p) s' ∧ s'.heap.mem p = page := by
  have hu : (Kernel.onPage page).Unlocked := fun _ => rfl
  refine ⟨Layout.page 1, _, kalloc_apply (hu _) (hookFree_of_unlocked hu _ _), ?_⟩
  rw [Kernel.setEntropy_heap, Kernel.setHeap_heap, Heap.pop_mem]
  rfl

theorem sha256_depends_on_message_clear :
    ∃ out s'' t'', (sha256 (fun _ => 0) 3).run (Kernel.onPage fun _ => 0) = .ok out s'' ∧
      (sha256 (fun i => if i.val = 4 then 1 else 0) 3).run
        (Kernel.onPage fun i => if i.val = 600 then 1 else 0) = .ok out t'' := by
  obtain ⟨p, s', hs, hp⟩ := kalloc_onPage fun _ => 0
  obtain ⟨q, t', ht, hq⟩ := kalloc_onPage fun i => if i.val = 600 then 1 else 0
  have hdata (i : ℕ) (hi : i < 4 * 1) : byteAt (fun _ => 0 : Buffer 4096) i =
      byteAt (fun i => if i.val = 4 then 1 else 0 : Buffer 4096) i := by
    rw [byteAt_of_lt _ (by omega), byteAt_of_lt _ (by omega), if_neg (by dsimp only; omega)]
  refine (sha256_depends_on_message hs ht (by decide) fun i hi => hdata i (by omega)).2
    fun i _ hi => ?_
  have hb : bufsize 3 = 512 := rfl
  have hw : 4 * messageWords 3 = 4 * 1 := rfl
  rw [hp, hq, bufferByte, bufferByte, hw]
  split_ifs with hin
  · exact shown_congr hdata hin
  · rw [byteAt_of_lt _ (by omega), byteAt_of_lt _ (by omega), if_neg (by dsimp only; omega)]

theorem not_sha256_depends_on_message : ¬ PageIndependent ∧ ¬ TailIndependent := by
  obtain ⟨p, s', hs, hp⟩ := kalloc_onPage zeroPage
  constructor
  · -- the empty message on a clear page and on one with a byte set in its last block
    intro h
    obtain ⟨q, t', ht, hq⟩ := kalloc_onPage (storeWord zeroPage 127 1)
    obtain ⟨out, s'', t'', hrun, hrun'⟩ := h _ _ _ _ p q zeroPage 0 hs ht (by decide)
    have hout := (hashed_eq_of_run hs (by decide) hrun).trans
      (hashed_eq_of_run ht (by decide) hrun').symm
    rw [hp, hq] at hout
    exact digest_ne_of_last_word (fun k _ => loadWord_zero k) (fun _ hk => loadWord_lastOne hk) hout
  · -- 509 zeros followed by zeros, and by a byte set in the last word
    intro h
    obtain ⟨out, s'', t'', hrun, hrun'⟩ :=
      h _ _ p zeroPage tailOne 509 hs (by decide) fun i hi => (byteAt_tailOne (by omega)).symm
    have hout := (hashed_eq_of_run hs (by decide) hrun).trans
      (hashed_eq_of_run hs (by decide) hrun').symm
    rw [hp] at hout
    refine digest_ne_of_last_word (fun k hk => ?_) (fun k hk => ?_) hout
    · rw [loadWord_fill _ _ _ (by omega), if_pos (by rw [messageWords]; omega), messageWord_zero]
    · rw [loadWord_fill _ _ _ (by omega), if_pos (by rw [messageWords]; omega)]
      by_cases hlast : k = 127
      · rw [hlast]
        decide
      · rw [lastOne, if_neg hlast, ← messageWord_zero (4 * k), messageWord, messageWord,
          byteAt_tailOne (by omega), byteAt_tailOne (by omega), byteAt_tailOne (by omega),
          byteAt_tailOne (by omega)]

end Xv6Prng
