import Mathlib.Data.List.Infix
import Mathlib.Data.List.Nodup
import TdUtils.Lib.Word

/-!
# Crypto.SecureBytes — random bytes out of a pool

`secure_bytes` in one thread.  `source` are the bytes that `RAND_bytes` generates, in the order in which it generates
them, and `succeeds` says which of its calls succeed.  The functions are generic in the bytes: with their places in the
source for bytes, a run shows which of the generated bytes it delivers.
-/

namespace TdUtils

open Lib

universe u

structure SecureRandom (α : Type u) where
  /-- Nothing before the first call of the thread. -/
  buf : Option (List α)
  bufPos : ℕ
  generation : ℕ
  /-- `random_seed_generation`. -/
  seedGeneration : ℕ
  /-- How many bytes `RAND_bytes` has generated, and in how many calls. -/
  drawn : ℕ
  calls : ℕ

namespace SecureRandom

/-- `LOG(FATAL)`, a `CHECK`, a read outside of the pool. -/
inductive Fault
  | fatal
  | check
  | outside
deriving DecidableEq

def bufSize : ℕ := 512

/-- `std::numeric_limits<int>::max()`. -/
def intMax : ℕ := 2 ^ 31 - 1

inductive Op
  | request (size : ℕ)
  | addSeed
  | cleanup
deriving DecidableEq

/-- How many bytes a call has to deliver. -/
def Op.size : Op → ℕ
  | .request size => size
  | _ => 0

section Functions

variable {α : Type u} (source : ℕ → α) (succeeds : ℕ → Bool) (zero : α)

def start : SecureRandom α := ⟨none, 0, 0, 0, 0, 0⟩

/-- `RAND_bytes`, and `LOG_IF(FATAL, err != 1)` after it. -/
def randBytes (s : SecureRandom α) (num : ℕ) : Except Fault (List α × SecureRandom α) :=
  if succeeds s.calls then
    .ok ((List.range' s.drawn num).map source, { s with drawn := s.drawn + num, calls := s.calls + 1 })
  else .error .fatal

/-- `init_thread_local`, and what is done when it returns `true`. -/
def initThread (s : SecureRandom α) : SecureRandom α :=
  match s.buf with
  | some _ => s
  | none => { s with buf := some (List.replicate bufSize zero), bufPos := bufSize, generation := 0 }

/-- The pool is empty when the generation has changed. -/
def refresh (s : SecureRandom α) : SecureRandom α :=
  if s.generation ≠ s.seedGeneration then { s with generation := s.seedGeneration, bufPos := bufSize } else s

/-- What `secure_bytes` does when the pool does not suffice: so many bytes are missing behind those in `ready`. -/
def generate (s : SecureRandom α) (ready : List α) (size : ℕ) : Except Fault (List α × SecureRandom α) :=
  if size < bufSize then do
    let (bytes, s) ← randBytes source succeeds s bufSize
    return (ready ++ bytes.take size, { s with buf := some bytes, bufPos := size })
  else if size ≤ intMax then do
    let (bytes, s) ← randBytes source succeeds s size
    return (ready ++ bytes, s)
  else .error .check

/-- `secure_bytes(ptr, size)`: the bytes that are stored from `ptr` on. -/
def secureBytes (s : SecureRandom α) (size : ℕ) : Except Fault (List α × SecureRandom α) :=
  let s := refresh (initThread zero s)
  let buf := s.buf.getD []
  let ready := min size (Word.sub 64 bufSize s.bufPos)
  if buf.length < s.bufPos + ready then .error .outside
  else
    let copied := (buf.drop s.bufPos).take ready
    let s := { s with bufPos := s.bufPos + ready }
    if ready ≠ 0 ∧ size - ready = 0 then .ok (copied, s)
    else generate source succeeds s copied (size - ready)

/-- `add_seed`; the generation is an `int64`. -/
def addSeed (s : SecureRandom α) : SecureRandom α := { s with seedGeneration := (s.seedGeneration + 1) % 2 ^ 64 }

/-- `secure_cleanup`, which is `secure_bytes(nullptr, 0)`. -/
def secureCleanup (s : SecureRandom α) : SecureRandom α :=
  { initThread zero s with buf := some (List.replicate bufSize zero), bufPos := bufSize }

/-- One call, with the bytes that it delivers. -/
def step (s : SecureRandom α) : Op → Except Fault (List α × SecureRandom α)
  | .request size => secureBytes source succeeds zero s size
  | .addSeed => .ok ([], addSeed s)
  | .cleanup => .ok ([], secureCleanup zero s)

def run (s : SecureRandom α) : List Op → Except Fault (List (List α) × SecureRandom α)
  | [] => .ok ([], s)
  | op :: ops => do
    let (out, s) ← step source succeeds zero s op
    let (outs, s) ← run s ops
    return (out :: outs, s)

end Functions

/-! ### One request -/

section Requests

variable {α : Type u} {source : ℕ → α} {succeeds : ℕ → Bool} {zero : α} {s t : SecureRandom α} {size : ℕ}

/-- The pool is there, with its position inside. -/
def Proper (s : SecureRandom α) : Prop := ∀ buf ∈ s.buf, buf.length = bufSize ∧ s.bufPos ≤ bufSize

/-- The bytes of the pool that were not delivered. -/
def pool (s : SecureRandom α) : List α := (s.buf.getD []).drop s.bufPos

/-- The bytes of the pool that a request may take. -/
def usable (s : SecureRandom α) : List α := if s.generation = s.seedGeneration then pool s else []

/-- After `init_thread_local` and the check of the generation the usable bytes are left of the pool. -/
structure Prepared (s t : SecureRandom α) (buf : List α) : Prop where
  buf_eq : t.buf = some buf
  length : buf.length = bufSize
  bufPos : t.bufPos ≤ bufSize
  rest : buf.drop t.bufPos = usable s
  generation : t.generation = s.seedGeneration
  seedGeneration : t.seedGeneration = s.seedGeneration
  drawn : t.drawn = s.drawn
  calls : t.calls = s.calls

theorem prepared (hs : Proper s) : ∃ buf, Prepared s (refresh (initThread zero s)) buf := by
  rcases hbuf : s.buf with - | buf
  · have hempty : usable s = [] := by
      unfold usable pool
      rw [hbuf]
      simp
    have hdrop : (List.replicate bufSize zero).drop bufSize = [] :=
      List.drop_of_length_le (Nat.le_of_eq List.length_replicate)
    refine ⟨List.replicate bufSize zero, ?_⟩
    unfold refresh initThread
    rw [hbuf]
    dsimp only
    split_ifs with hgen
    · exact ⟨rfl, List.length_replicate, Nat.le_refl _, by rw [hempty, hdrop], rfl, rfl, rfl, rfl⟩
    · exact ⟨rfl, List.length_replicate, Nat.le_refl _, by rw [hempty, hdrop], not_not.mp hgen, rfl, rfl, rfl⟩
  · obtain ⟨hlen, hpos⟩ := hs buf hbuf
    refine ⟨buf, ?_⟩
    unfold refresh initThread
    rw [hbuf]
    dsimp only
    split_ifs with hgen
    · have hempty : usable s = [] := if_neg hgen
      exact ⟨hbuf, hlen, Nat.le_refl _, by rw [hempty, List.drop_of_length_le (Nat.le_of_eq hlen)], rfl, rfl, rfl, rfl⟩
    · have hpool : usable s = buf.drop s.bufPos := by
        unfold usable pool
        rw [if_pos (not_not.mp hgen), hbuf]
        rfl
      exact ⟨hbuf, hlen, hpos, hpool.symm, not_not.mp hgen, rfl, rfl, rfl⟩

/-- A request takes what is usable of the pool, and goes on behind it when that does not suffice. -/
theorem secureBytes_eq {buf : List α} (h : Prepared s (refresh (initThread zero s)) buf) (size : ℕ) :
    secureBytes source succeeds zero s size =
      if size ≠ 0 ∧ size ≤ (usable s).length then
        .ok ((usable s).take size,
          { refresh (initThread zero s) with bufPos := (refresh (initThread zero s)).bufPos + size })
      else generate source succeeds
        { refresh (initThread zero s) with
          bufPos := (refresh (initThread zero s)).bufPos + min size (usable s).length }
        ((usable s).take size) (size - (usable s).length) := by
  have hbuf : (refresh (initThread zero s)).buf.getD [] = buf := by rw [h.buf_eq]; rfl
  have hrest := h.rest
  have hlen := congrArg List.length hrest
  rw [List.length_drop, h.length] at hlen
  have hpos := h.bufPos
  have hsub : Word.sub 64 bufSize (refresh (initThread zero s)).bufPos = (usable s).length := by
    rw [Word.sub_of_le hpos (by decide), hlen]
  have htake : (usable s).take (min size (usable s).length) = (usable s).take size := by
    rw [← List.take_take, List.take_length]
  have hmin : size - min size (usable s).length = size - (usable s).length := by omega
  unfold secureBytes
  dsimp only
  rw [hbuf, hsub, hrest, htake, hmin, if_neg (by rw [h.length]; omega)]
  by_cases hcase : size ≠ 0 ∧ size ≤ (usable s).length
  · rw [if_pos hcase, if_pos (by omega), Nat.min_eq_left hcase.2]
  · rw [if_neg hcase, if_neg (by omega)]

theorem take_map_range' {m n : ℕ} (h : n ≤ m) (a : ℕ) :
    ((List.range' a m).map source).take n = (List.range' a n).map source := by
  rw [← List.map_take, List.take_range'_of_length_ge h]

theorem drop_map_range' (a m n : ℕ) :
    ((List.range' a m).map source).drop n = (List.range' (a + n) (m - n)).map source := by
  rw [← List.map_drop, List.drop_range', Nat.mul_one]

/-- What is generated is the next part of the source, and a new pool is more of it. -/
theorem generate_ok {ready out : List α} (h : generate source succeeds s ready size = .ok (out, t)) :
    out = ready ++ (List.range' s.drawn size).map source ∧ t.generation = s.generation ∧
      t.seedGeneration = s.seedGeneration ∧
      ((t.buf = some ((List.range' s.drawn bufSize).map source) ∧ t.bufPos = size ∧ size < bufSize ∧
          t.drawn = s.drawn + bufSize) ∨
        (t.buf = s.buf ∧ t.bufPos = s.bufPos ∧ bufSize ≤ size ∧ t.drawn = s.drawn + size)) := by
  unfold generate randBytes at h
  by_cases hsucc : succeeds s.calls = true
  · simp only [hsucc, if_true] at h
    by_cases hsmall : size < bufSize
    · rw [if_pos hsmall] at h
      obtain ⟨rfl, rfl⟩ := Prod.mk.inj (Except.ok.inj h)
      exact ⟨by rw [take_map_range' (Nat.le_of_lt hsmall)], rfl, rfl, .inl ⟨rfl, rfl, hsmall, rfl⟩⟩
    · rw [if_neg hsmall] at h
      by_cases hmax : size ≤ intMax
      · rw [if_pos hmax] at h
        obtain ⟨rfl, rfl⟩ := Prod.mk.inj (Except.ok.inj h)
        exact ⟨rfl, rfl, rfl, .inr ⟨rfl, rfl, Nat.le_of_not_lt hsmall, rfl⟩⟩
      · rw [if_neg hmax] at h
        cases h
  · simp only [hsucc, Bool.false_eq_true, if_false] at h
    split_ifs at h <;> cases h

theorem generate_error {ready : List α} {f : Fault} (h : generate source succeeds s ready size = .error f) :
    (f = .fatal ∧ succeeds s.calls = false) ∨ (f = .check ∧ intMax < size) := by
  unfold generate randBytes at h
  by_cases hsucc : succeeds s.calls = true
  · simp only [hsucc, if_true] at h
    split_ifs at h with hsmall hmax
    · cases h
    · cases h
    · exact .inr ⟨(Except.error.inj h).symm, by omega⟩
  · simp only [hsucc, Bool.false_eq_true, if_false] at h
    split_ifs at h with hsmall hmax
    · exact .inl ⟨(Except.error.inj h).symm, by simpa using hsucc⟩
    · exact .inl ⟨(Except.error.inj h).symm, by simpa using hsucc⟩
    · exact .inr ⟨(Except.error.inj h).symm, by omega⟩

/-- What a request that returns has done: its bytes come from the pool, and behind it from the source; and what is left
of the pool was there before, or comes from the source behind them. -/
theorem secureBytes_ok (hs : Proper s) {out : List α} (h : secureBytes source succeeds zero s size = .ok (out, t)) :
    out.length = size ∧ Proper t ∧ t.buf.isSome ∧ t.generation = s.seedGeneration ∧
      t.seedGeneration = s.seedGeneration ∧
      ((out = (usable s).take size ∧ pool t = (usable s).drop size ∧ t.drawn = s.drawn) ∨
        ∃ r num, r ≤ num ∧ out = (usable s).take size ++ (List.range' s.drawn r).map source ∧
          pool t = (List.range' (s.drawn + r) (num - r)).map source ∧ t.drawn = s.drawn + num) := by
  obtain ⟨buf, hp⟩ := prepared hs
  have hrest := hp.rest
  have hbuflen := hp.length
  have hlen := congrArg List.length hrest
  rw [List.length_drop, hbuflen] at hlen
  have hpos := hp.bufPos
  rw [secureBytes_eq hp] at h
  split_ifs at h with hcase
  · -- from the pool
    obtain ⟨rfl, rfl⟩ := Prod.mk.inj (Except.ok.inj h)
    refine ⟨?_, ?_, ?_, hp.generation, hp.seedGeneration, .inl ⟨rfl, ?_, hp.drawn⟩⟩
    · rw [List.length_take]
      omega
    · intro b hb
      obtain rfl : buf = b := Option.some.inj (hp.buf_eq.symm.trans hb)
      exact ⟨hbuflen, by dsimp only; omega⟩
    · rw [hp.buf_eq]
      rfl
    · unfold pool
      rw [hp.buf_eq, ← hrest, List.drop_drop]
      rfl
  · obtain ⟨rfl, hgen, hseed, hrecord⟩ := generate_ok h
    dsimp only at hgen hseed hrecord
    rw [hp.drawn] at hrecord ⊢
    refine ⟨?_, ?_, ?_, hgen.trans hp.generation, hseed.trans hp.seedGeneration, .inr ?_⟩
    · rw [List.length_append, List.length_take, List.length_map, List.length_range']
      omega
    · rcases hrecord with ⟨hbuf, hbufPos, hsmall, -⟩ | ⟨hbuf, hbufPos, -, -⟩
      · intro b hb
        obtain rfl := Option.some.inj (hbuf.symm.trans hb)
        exact ⟨by rw [List.length_map, List.length_range'], by omega⟩
      · intro b hb
        obtain rfl : buf = b := Option.some.inj (hp.buf_eq.symm.trans (hbuf.symm.trans hb))
        exact ⟨hbuflen, by omega⟩
    · rcases hrecord with ⟨hbuf, -⟩ | ⟨hbuf, -⟩
      · rw [hbuf]
        rfl
      · rw [hbuf, hp.buf_eq]
        rfl
    · rcases hrecord with ⟨hbuf, hbufPos, hsmall, hdrawn⟩ | ⟨hbuf, hbufPos, hbig, hdrawn⟩
      · refine ⟨_, bufSize, Nat.le_of_lt hsmall, rfl, ?_, hdrawn⟩
        unfold pool
        rw [hbuf, hbufPos]
        exact drop_map_range' _ _ _
      · refine ⟨_, _, Nat.le_refl _, rfl, ?_, hdrawn⟩
        unfold pool
        rw [hbuf, hp.buf_eq, hbufPos, Nat.sub_self]
        exact List.drop_of_length_le (by dsimp only [Option.getD_some]; omega)

theorem secureBytes_error (hs : Proper s) {f : Fault} (h : secureBytes source succeeds zero s size = .error f) :
    (f = .fatal ∧ succeeds s.calls = false) ∨ (f = .check ∧ intMax < size - (usable s).length) := by
  obtain ⟨buf, hp⟩ := prepared hs
  rw [secureBytes_eq hp] at h
  split_ifs at h
  have herror := generate_error h
  dsimp only at herror
  rwa [hp.calls] at herror

end Requests

/-! ### Which bytes are delivered -/

section Places

variable {succeeds : ℕ → Bool} {s t : SecureRandom (Option ℕ)} {delivered : List ℕ} {seeds limit : ℕ}

/-- The calls of `add_seed` since the last request. -/
def seedsAfter (seeds : ℕ) (ops : List Op) : ℕ :=
  ops.foldl (fun n op => match op with | .request _ => 0 | .addSeed => n + 1 | .cleanup => n) seeds

/-- The pool has a part of the source that was not delivered, and the generation counts the calls of `add_seed`. -/
structure Tracks (s : SecureRandom (Option ℕ)) (delivered : List ℕ) (seeds : ℕ) : Prop where
  proper : Proper s
  fresh : ∃ p n, pool s = (List.range' p n).map some ∧ p + n ≤ s.drawn ∧
    ∀ j ∈ delivered, j < s.drawn ∧ ¬(p ≤ j ∧ j < p + n)
  nodup : delivered.Nodup
  generation : s.generation < 2 ^ 64
  seeds_eq : s.seedGeneration = (s.generation + seeds) % 2 ^ 64
  unused : s.buf = none → s.generation = 0

/-- What a request may still take was not generated before the first `limit` bytes were. -/
def Later (s : SecureRandom (Option ℕ)) (seeds limit : ℕ) : Prop :=
  limit ≤ s.drawn ∧ (seeds ≠ 0 ∨ ∀ x ∈ pool s, ∃ j, limit ≤ j ∧ x = some j)

theorem start_tracks : Tracks start [] 0 :=
  ⟨fun _ hb => (by cases hb), ⟨0, 0, rfl, Nat.le_refl 0, by simp⟩, List.nodup_nil, by decide, rfl, fun _ => rfl⟩

/-- After `add_seed` nothing of the pool is usable. -/
theorem Tracks.usable_eq (h : Tracks s delivered seeds) (hseeds : seeds < 2 ^ 64) :
    usable s = if seeds = 0 then pool s else [] := by
  have hgen := h.generation
  have heq := h.seeds_eq
  unfold usable
  by_cases hzero : seeds = 0
  · rw [if_pos hzero, if_pos (by omega)]
  · rw [if_neg hzero, if_neg (by omega)]

/-- The usable bytes are the first part of what is left of the pool, and none of them is below the limit. -/
theorem Tracks.usable_places (h : Tracks s delivered seeds) (hlater : Later s seeds limit) (hseeds : seeds < 2 ^ 64) :
    ∃ p m, usable s = (List.range' p m).map some ∧ p + m ≤ s.drawn ∧
      (∀ j ∈ delivered, j < s.drawn ∧ ¬(p ≤ j ∧ j < p + m)) ∧ ∀ j, p ≤ j → j < p + m → limit ≤ j := by
  obtain ⟨p, n, hpool, hdrawn, hold⟩ := h.fresh
  rw [h.usable_eq hseeds]
  by_cases hzero : seeds = 0
  · rw [if_pos hzero]
    refine ⟨p, n, hpool, hdrawn, hold, fun j hj hlt => ?_⟩
    have hmem : some j ∈ pool s := by
      rw [hpool]
      exact List.mem_map_of_mem (List.mem_range'_1.mpr ⟨hj, hlt⟩)
    obtain ⟨i, hi, hij⟩ := hlater.2.resolve_left (not_not.mpr hzero) (some j) hmem
    exact Option.some.inj hij ▸ hi
  · rw [if_neg hzero]
    exact ⟨0, 0, rfl, Nat.zero_le _, fun j hj => ⟨(hold j hj).1, by omega⟩, fun j _ hj => by omega⟩

/-- The places `js` are delivered, and `b` places from `a` on are left in the pool. -/
theorem Tracks.deliver (h : Tracks s delivered seeds) (hproper : Proper t) (hbuf : t.buf.isSome)
    (hgen : t.generation = s.seedGeneration) (hseed : t.seedGeneration = s.seedGeneration) {js : List ℕ} {a b : ℕ}
    (hpool : pool t = (List.range' a b).map some) (hdrawn : a + b ≤ t.drawn)
    (hout : ∀ j, j ∈ delivered ∨ j ∈ js → j < t.drawn ∧ ¬(a ≤ j ∧ j < a + b)) (hjs : js.Nodup)
    (hnew : ∀ j ∈ delivered, j ∉ js) : Tracks t (delivered ++ js) 0 := by
  have hlt : s.seedGeneration < 2 ^ 64 := by
    rw [h.seeds_eq]
    exact Nat.mod_lt _ (by decide)
  refine ⟨hproper, ⟨a, b, hpool, hdrawn, fun j hj => hout j (List.mem_append.mp hj)⟩, ?_, ?_, ?_, ?_⟩
  · exact List.nodup_append.mpr ⟨h.nodup, hjs, fun j hj i hi hij => hnew j hj (hij ▸ hi)⟩
  · rw [hgen]
    exact hlt
  · rw [hseed, hgen, Nat.add_zero, Nat.mod_eq_of_lt hlt]
  · intro hnone
    rw [hnone] at hbuf
    cases hbuf

theorem later_of_range {a b : ℕ} (hpool : pool t = (List.range' a b).map some) (hdrawn : limit ≤ t.drawn)
    (hge : ∀ j, a ≤ j → j < a + b → limit ≤ j) : Later t 0 limit := by
  refine ⟨hdrawn, .inr fun x hx => ?_⟩
  rw [hpool] at hx
  obtain ⟨j, hj, rfl⟩ := List.mem_map.mp hx
  rw [List.mem_range'_1] at hj
  exact ⟨j, hge j hj.1 hj.2, rfl⟩

/-- A request delivers places that were not delivered, and none below the limit. -/
theorem Tracks.request (h : Tracks s delivered seeds) (hlater : Later s seeds limit) (hseeds : seeds < 2 ^ 64)
    {size : ℕ} {out : List (Option ℕ)} (hstep : secureBytes some succeeds none s size = .ok (out, t)) :
    ∃ js : List ℕ, out = js.map some ∧ js.length = size ∧ Tracks t (delivered ++ js) 0 ∧ Later t 0 limit ∧
      ∀ j ∈ js, limit ≤ j := by
  obtain ⟨hlen, hproper, hbuf, hgen, hseed, hcases⟩ := secureBytes_ok h.proper hstep
  obtain ⟨p, m, husable, hdrawn, hold, hge⟩ := h.usable_places hlater hseeds
  have hlimit := hlater.1
  -- the part that comes from the pool
  have htake : ((List.range' p m).map some).take size = (List.range' p (min size m)).map some := by
    rw [← take_map_range' (Nat.min_le_right size m), List.take_eq_take_iff, List.length_map, List.length_range']
    omega
  rw [husable, htake] at hcases
  rcases hcases with ⟨rfl, hpool, htdrawn⟩ | ⟨r, num, hr, rfl, hpool, htdrawn⟩
  · rw [List.length_map, List.length_range'] at hlen
    rw [drop_map_range'] at hpool
    refine ⟨List.range' p (min size m), rfl, by rw [List.length_range', hlen],
      h.deliver hproper hbuf hgen hseed hpool (by omega) ?_ List.nodup_range' ?_,
      later_of_range hpool (by omega) fun j hj hlt => hge j (by omega) (by omega), fun j hj => ?_⟩
    · rintro j (hj | hj)
      · have := hold j hj
        omega
      · rw [List.mem_range'_1] at hj
        omega
    · intro j hj hmem
      rw [List.mem_range'_1] at hmem
      have := hold j hj
      omega
    · rw [List.mem_range'_1] at hj
      exact hge j hj.1 (by omega)
  · rw [← List.map_append, List.length_map] at hlen
    refine ⟨List.range' p (min size m) ++ List.range' s.drawn r, List.map_append.symm, hlen,
      h.deliver hproper hbuf hgen hseed hpool (by omega) ?_ (List.nodup_append.mpr ⟨List.nodup_range', List.nodup_range', ?_⟩) ?_,
      later_of_range hpool (by omega) fun j hj _ => by omega, fun j hj => ?_⟩
    · rintro j (hj | hj)
      · have := hold j hj
        omega
      · rw [List.mem_append, List.mem_range'_1, List.mem_range'_1] at hj
        omega
    · intro j hj i hi hij
      rw [List.mem_range'_1] at hi hj
      omega
    · intro j hj hmem
      rw [List.mem_append, List.mem_range'_1, List.mem_range'_1] at hmem
      have := hold j hj
      omega
    · rw [List.mem_append, List.mem_range'_1, List.mem_range'_1] at hj
      rcases hj with hj | hj
      · exact hge j hj.1 (by omega)
      · omega

theorem Tracks.addSeed (h : Tracks s delivered seeds) : Tracks (addSeed s) delivered (seeds + 1) := by
  have heq := h.seeds_eq
  refine ⟨h.proper, h.fresh, h.nodup, h.generation, ?_, h.unused⟩
  change (s.seedGeneration + 1) % 2 ^ 64 = _
  rw [heq, Nat.mod_add_mod, Nat.add_assoc]
  rfl

theorem Tracks.cleanup (h : Tracks s delivered seeds) : Tracks (secureCleanup none s) delivered seeds ∧
    pool (secureCleanup none s) = [] ∧ (secureCleanup none s).drawn = s.drawn := by
  have hpool : pool (secureCleanup none s) = [] := List.drop_of_length_le (Nat.le_of_eq List.length_replicate)
  have hkept : (secureCleanup none s).drawn = s.drawn ∧ (secureCleanup none s).generation = s.generation ∧
      (secureCleanup none s).seedGeneration = s.seedGeneration := by
    rcases hbuf : s.buf with - | buf
    · have hzero := h.unused hbuf
      simp [secureCleanup, initThread, hbuf, hzero]
    · simp [secureCleanup, initThread, hbuf]
  obtain ⟨hdrawn, hgen, hseed⟩ := hkept
  obtain ⟨p, n, -, hle, hold⟩ := h.fresh
  refine ⟨⟨?_, ⟨0, 0, hpool, Nat.zero_le _, fun j hj => ⟨by rw [hdrawn]; exact (hold j hj).1, by omega⟩⟩, h.nodup, ?_, ?_,
    fun hnone => by cases hnone⟩, hpool, hdrawn⟩
  · intro buf hbuf
    obtain rfl := Option.some.inj hbuf
    exact ⟨List.length_replicate, Nat.le_refl _⟩
  · rw [hgen]
    exact h.generation
  · rw [hgen, hseed]
    exact h.seeds_eq

/-- One call keeps what is known of the pool, and delivers new places. -/
theorem Tracks.step (h : Tracks s delivered seeds) (hlater : Later s seeds limit) (hseeds : seeds < 2 ^ 64) {op : Op}
    {out : List (Option ℕ)} (hstep : step some succeeds none s op = .ok (out, t)) :
    ∃ js : List ℕ, out = js.map some ∧ js.length = op.size ∧ Tracks t (delivered ++ js) (seedsAfter seeds [op]) ∧
      Later t (seedsAfter seeds [op]) limit ∧ ∀ j ∈ js, limit ≤ j := by
  cases op with
  | request size => exact h.request hlater hseeds hstep
  | addSeed =>
    obtain ⟨rfl, rfl⟩ := Prod.mk.inj (Except.ok.inj hstep)
    refine ⟨[], rfl, rfl, by rw [List.append_nil]; exact h.addSeed, ⟨hlater.1, .inl ?_⟩, by simp⟩
    exact Nat.succ_ne_zero seeds
  | cleanup =>
    obtain ⟨rfl, rfl⟩ := Prod.mk.inj (Except.ok.inj hstep)
    obtain ⟨htracks, hpool, hdrawn⟩ := h.cleanup
    refine ⟨[], rfl, rfl, by rw [List.append_nil]; exact htracks, ⟨by rw [hdrawn]; exact hlater.1, .inr ?_⟩, by simp⟩
    rw [hpool]
    simp

theorem Tracks.later_zero (h : Tracks s delivered seeds) : Later s seeds 0 := by
  obtain ⟨p, n, hpool, -, -⟩ := h.fresh
  refine ⟨Nat.zero_le _, .inr fun x hx => ?_⟩
  rw [hpool] at hx
  obtain ⟨j, -, rfl⟩ := List.mem_map.mp hx
  exact ⟨j, Nat.zero_le j, rfl⟩

/-- After `add_seed` and after a cleanup nothing that was generated before is usable. -/
theorem Tracks.later (h : Tracks s delivered seeds) {op : Op} (hop : op = .addSeed ∨ op = .cleanup)
    {out : List (Option ℕ)} (hstep : SecureRandom.step some succeeds none s op = .ok (out, t)) :
    Later t (seedsAfter seeds [op]) s.drawn := by
  rcases hop with rfl | rfl
  · obtain ⟨-, rfl⟩ := Prod.mk.inj (Except.ok.inj hstep)
    exact ⟨Nat.le_refl _, .inl (Nat.succ_ne_zero seeds)⟩
  · obtain ⟨-, rfl⟩ := Prod.mk.inj (Except.ok.inj hstep)
    obtain ⟨-, hpool, hdrawn⟩ := h.cleanup
    refine ⟨Nat.le_of_eq hdrawn.symm, .inr ?_⟩
    rw [hpool]
    simp

end Places

/-! ### Runs -/

section Runs

variable {α : Type u} {source : ℕ → α} {succeeds : ℕ → Bool} {zero : α} {s t v : SecureRandom α}

theorem run_cons_inv {op : Op} {ops : List Op} {outs : List (List α)}
    (h : run source succeeds zero s (op :: ops) = .ok (outs, v)) :
    ∃ out t outs', step source succeeds zero s op = .ok (out, t) ∧ run source succeeds zero t ops = .ok (outs', v) ∧
      outs = out :: outs' := by
  rcases hstep : step source succeeds zero s op with f | ⟨out, t⟩
  · rw [run, hstep] at h
    cases h
  · rcases hrun : run source succeeds zero t ops with f | ⟨outs', w⟩
    · rw [run, hstep] at h
      change (run source succeeds zero t ops >>= _) = _ at h
      rw [hrun] at h
      cases h
    · rw [run, hstep] at h
      change (run source succeeds zero t ops >>= _) = _ at h
      rw [hrun] at h
      obtain ⟨rfl, rfl⟩ := Prod.mk.inj (Except.ok.inj h)
      exact ⟨out, t, outs', rfl, hrun, rfl⟩

theorem run_cons_of {op : Op} {ops : List Op} {out : List α} {outs : List (List α)}
    (hstep : step source succeeds zero s op = .ok (out, t)) (hrun : run source succeeds zero t ops = .ok (outs, v)) :
    run source succeeds zero s (op :: ops) = .ok (out :: outs, v) := by
  rw [run, hstep]
  change (run source succeeds zero t ops >>= _) = _
  rw [hrun]
  rfl

theorem run_append_inv {rest : List Op} : ∀ {before : List Op} {s : SecureRandom α} {outs : List (List α)},
    run source succeeds zero s (before ++ rest) = .ok (outs, v) →
      ∃ outs₁ t outs₂, run source succeeds zero s before = .ok (outs₁, t) ∧
        run source succeeds zero t rest = .ok (outs₂, v) ∧ outs = outs₁ ++ outs₂ ∧ outs₁.length = before.length
  | [], s, outs, h => ⟨[], s, outs, rfl, h, rfl, rfl⟩
  | op :: before, s, outs, h => by
    obtain ⟨out, t, outs', hstep, hrun, rfl⟩ := run_cons_inv h
    obtain ⟨outs₁, u, outs₂, hbefore, hrest, rfl, hlen⟩ := run_append_inv hrun
    exact ⟨out :: outs₁, u, outs₂, run_cons_of hstep hbefore, hrest, rfl, congrArg Nat.succ hlen⟩

theorem run_append_of {rest : List Op} {outs₂ : List (List α)} (hrest : run source succeeds zero t rest = .ok (outs₂, v)) :
    ∀ {before : List Op} {s : SecureRandom α} {outs₁ : List (List α)},
      run source succeeds zero s before = .ok (outs₁, t) →
        run source succeeds zero s (before ++ rest) = .ok (outs₁ ++ outs₂, v)
  | [], s, outs₁, h => by
    obtain ⟨rfl, rfl⟩ := Prod.mk.inj (Except.ok.inj h)
    exact hrest
  | op :: before, s, outs₁, h => by
    obtain ⟨out, u, outs', hstep, hrun, rfl⟩ := run_cons_inv h
    exact run_cons_of hstep (run_append_of hrest hrun)

theorem step_proper (hs : Proper s) {op : Op} {out : List α} (h : step source succeeds zero s op = .ok (out, t)) :
    Proper t := by
  cases op with
  | request size => exact (secureBytes_ok hs h).2.1
  | addSeed =>
    obtain ⟨-, rfl⟩ := Prod.mk.inj (Except.ok.inj h)
    exact hs
  | cleanup =>
    obtain ⟨-, rfl⟩ := Prod.mk.inj (Except.ok.inj h)
    intro buf hbuf
    obtain rfl := Option.some.inj hbuf
    exact ⟨List.length_replicate, Nat.le_refl _⟩

/-- A run ends only at a request, where `RAND_bytes` fails or too much is missing from the pool. -/
theorem run_error {f : Fault} : ∀ {ops : List Op} {s : SecureRandom α}, Proper s →
    run source succeeds zero s ops = .error f →
      ∃ before size rest outs t, ops = before ++ .request size :: rest ∧
        run source succeeds zero s before = .ok (outs, t) ∧
        ((f = .fatal ∧ succeeds t.calls = false) ∨ (f = .check ∧ intMax < size - (usable t).length))
  | [], s, _, h => by cases h
  | op :: ops, s, hs, h => by
    rcases hstep : step source succeeds zero s op with g | ⟨out, t⟩
    · rw [run, hstep] at h
      obtain rfl := Except.error.inj h
      cases op with
      | request size => exact ⟨[], size, ops, [], s, rfl, rfl, secureBytes_error hs hstep⟩
      | addSeed => cases hstep
      | cleanup => cases hstep
    · have hrun : run source succeeds zero t ops = .error f := by
        rcases hrun : run source succeeds zero t ops with g | ⟨outs, w⟩
        · rw [run, hstep] at h
          change (run source succeeds zero t ops >>= _) = _ at h
          rw [hrun] at h
          exact h
        · rw [run_cons_of hstep hrun] at h
          cases h
      obtain ⟨before, size, rest, outs, w, rfl, hbefore, hcause⟩ := run_error (step_proper hs hstep) hrun
      exact ⟨op :: before, size, rest, out :: outs, w, rfl, run_cons_of hstep hbefore, hcause⟩

/-- The places that a run delivers. -/
theorem Tracks.run {succeeds : ℕ → Bool} {limit : ℕ} : ∀ {ops : List Op} {s t : SecureRandom (Option ℕ)}
    {delivered : List ℕ} {seeds : ℕ} {outs : List (List (Option ℕ))}, Tracks s delivered seeds → Later s seeds limit →
      (∀ before, before <+: ops → seedsAfter seeds before < 2 ^ 64) →
      SecureRandom.run some succeeds none s ops = .ok (outs, t) →
        ∃ js : List (List ℕ), outs = js.map (List.map some) ∧ js.map List.length = ops.map Op.size ∧
          Tracks t (delivered ++ js.flatten) (seedsAfter seeds ops) ∧ ∀ j ∈ js.flatten, limit ≤ j
  | [], s, t, delivered, seeds, outs, h, _, _, hrun => by
    obtain ⟨rfl, rfl⟩ := Prod.mk.inj (Except.ok.inj hrun)
    exact ⟨[], rfl, rfl, by rw [List.flatten_nil, List.append_nil]; exact h, by simp⟩
  | op :: ops, s, t, delivered, seeds, outs, h, hlater, hseeds, hrun => by
    obtain ⟨out, u, outs', hstep, hrest, rfl⟩ := run_cons_inv hrun
    obtain ⟨js, rfl, hlen, htracks, hlater', hge⟩ := h.step hlater (hseeds [] (List.nil_prefix)) hstep
    obtain ⟨js', rfl, hsizes, htracks', hge'⟩ := Tracks.run htracks hlater'
      (fun before hbefore => hseeds (op :: before) (List.cons_prefix_cons.mpr ⟨rfl, hbefore⟩)) hrest
    refine ⟨js :: js', rfl, ?_, ?_, ?_⟩
    · rw [List.map_cons, List.map_cons, hlen, hsizes]
    · rwa [List.flatten_cons, ← List.append_assoc]
    · intro j hj
      rw [List.flatten_cons] at hj
      exact (List.mem_append.mp hj).elim (hge j) (hge' j)

end Runs

/-! ### Other bytes -/

section Naturality

variable {α β : Type u} (f : α → β) {source : ℕ → α} {succeeds : ℕ → Bool} {zero : α}

/-- The same state over other bytes. -/
def mapBytes (s : SecureRandom α) : SecureRandom β := { s with buf := s.buf.map (List.map f) }

/-- An outcome over other bytes. -/
def mapOutcome {γ δ : Type u} (g : γ → δ) (r : Except Fault (γ × SecureRandom α)) : Except Fault (δ × SecureRandom β) :=
  r.map fun p => (g p.1, mapBytes f p.2)

theorem usable_map (s : SecureRandom α) : usable (mapBytes f s) = (usable s).map f := by
  unfold usable pool mapBytes
  split_ifs
  · rcases hbuf : s.buf with - | buf
    · simp
    · simp [List.map_drop]
  · rfl

theorem prepared_map (s : SecureRandom α) :
    refresh (initThread (f zero) (mapBytes f s)) = mapBytes f (refresh (initThread zero s)) := by
  unfold refresh initThread mapBytes
  rcases hbuf : s.buf with - | buf
  · simp only [Option.map_none]
    split_ifs
    · simp
    · simp
  · simp only [Option.map_some]
    split_ifs
    · simp [hbuf]
    · rw [hbuf]
      rfl

theorem generate_map (s : SecureRandom α) (ready : List α) (size : ℕ) :
    generate (f ∘ source) succeeds (mapBytes f s) (ready.map f) size =
      mapOutcome f (List.map f) (generate source succeeds s ready size) := by
  have hcalls : (mapBytes f s).calls = s.calls := rfl
  unfold generate randBytes
  rw [hcalls]
  by_cases hsucc : succeeds s.calls = true
  · simp only [hsucc, if_true]
    split_ifs
    · simp [mapOutcome, mapBytes, Except.map, bind, Except.bind, pure, Except.pure, List.map_take]
    · simp [mapOutcome, mapBytes, Except.map, bind, Except.bind, pure, Except.pure]
    · rfl
  · simp only [hsucc, Bool.false_eq_true, if_false]
    split_ifs
    · rfl
    · rfl
    · rfl

theorem secureBytes_map (s : SecureRandom α) (size : ℕ) :
    secureBytes (f ∘ source) succeeds (f zero) (mapBytes f s) size =
      mapOutcome f (List.map f) (secureBytes source succeeds zero s size) := by
  have hbuf : ((mapBytes f (refresh (initThread zero s))).buf.getD []) =
      ((refresh (initThread zero s)).buf.getD []).map f := by
    unfold mapBytes
    rcases (refresh (initThread zero s)).buf with - | buf <;> rfl
  have hpos : (mapBytes f (refresh (initThread zero s))).bufPos = (refresh (initThread zero s)).bufPos := rfl
  unfold secureBytes
  dsimp only
  rw [prepared_map, hbuf, hpos, List.length_map, ← List.map_drop, ← List.map_take]
  split_ifs
  · rfl
  · rfl
  · exact generate_map f { refresh (initThread zero s) with
      bufPos := (refresh (initThread zero s)).bufPos +
        min size (Word.sub 64 bufSize (refresh (initThread zero s)).bufPos) } _ _

theorem step_map (s : SecureRandom α) (op : Op) :
    step (f ∘ source) succeeds (f zero) (mapBytes f s) op =
      mapOutcome f (List.map f) (step source succeeds zero s op) := by
  cases op with
  | request size => exact secureBytes_map f s size
  | addSeed => rfl
  | cleanup =>
    rcases hbuf : s.buf with - | buf
    · simp [step, mapOutcome, secureCleanup, initThread, mapBytes, hbuf, Except.map]
    · simp [step, mapOutcome, secureCleanup, initThread, mapBytes, hbuf, Except.map]

/-- A run does not look at the bytes. -/
theorem run_map : ∀ (ops : List Op) (s : SecureRandom α),
    run (f ∘ source) succeeds (f zero) (mapBytes f s) ops =
      mapOutcome f (List.map (List.map f)) (run source succeeds zero s ops)
  | [], s => rfl
  | op :: ops, s => by
    rw [run, run, step_map]
    rcases step source succeeds zero s op with fault | ⟨out, t⟩
    · rfl
    · change (run (f ∘ source) succeeds (f zero) (mapBytes f t) ops >>= _) =
        mapOutcome f _ (run source succeeds zero t ops >>= _)
      rw [run_map ops t]
      rcases run source succeeds zero t ops with fault | ⟨outs, v⟩
      · rfl
      · rfl

end Naturality

/-! ### All requests -/

/-- The run returns, and its bytes are those at the places `js` of the source, whatever bytes `RAND_bytes` generates. -/
structure Delivers (succeeds : ℕ → Bool) (ops : List Op) (js : List (List ℕ)) : Prop where
  returns : ∀ {α : Type} (source : ℕ → α) (zero : α),
    ∃ t, run source succeeds zero start ops = .ok (js.map (List.map source), t)
  filled : js.map List.length = ops.map Op.size
  /-- No byte is delivered twice. -/
  nodup : js.flatten.Nodup
  /-- What is delivered after an `add_seed` or a cleanup had not been generated by then. -/
  fresh : ∀ before op rest, ops = before ++ op :: rest → op = .addSeed ∨ op = .cleanup →
    ∃ generated, (∀ {α : Type} (source : ℕ → α) (zero : α),
        ∃ outs t, run source succeeds zero start before = .ok (outs, t) ∧ t.drawn = generated) ∧
      ∀ j ∈ (js.drop (before.length + 1)).flatten, generated ≤ j

/-- The program ends at a request: `RAND_bytes` fails, or the pool lacks more bytes than an `int` can count. -/
def Ends (succeeds : ℕ → Bool) (ops : List Op) (fault : Fault) : Prop :=
  ∃ before size rest, ops = before ++ .request size :: rest ∧ ∀ {α : Type} (source : ℕ → α) (zero : α),
    run source succeeds zero start ops = .error fault ∧
      ∃ outs t, run source succeeds zero start before = .ok (outs, t) ∧
        ((fault = .fatal ∧ succeeds t.calls = false) ∨ (fault = .check ∧ intMax < size - (usable t).length))

section Outcomes

variable {succeeds : ℕ → Bool} {ops : List Op}

/-- What is known of the places is known of the bytes. -/
theorem run_places {α : Type} (source : ℕ → α) (zero : α) (ops : List Op) :
    run source succeeds zero start ops =
      mapOutcome (fun place : Option ℕ => place.elim zero source)
        (List.map (List.map fun place : Option ℕ => place.elim zero source)) (run some succeeds none start ops) :=
  @run_map _ _ (fun place : Option ℕ => place.elim zero source) some succeeds none ops start

theorem run_places_ok {α : Type} (source : ℕ → α) (zero : α) {js : List (List ℕ)} {t : SecureRandom (Option ℕ)}
    (h : run some succeeds none start ops = .ok (js.map (List.map some), t)) :
    run source succeeds zero start ops =
      .ok (js.map (List.map source), mapBytes (fun place => place.elim zero source) t) := by
  rw [run_places, h]
  refine congrArg (fun outs => Except.ok (outs, _)) ?_
  rw [List.map_map]
  refine List.map_congr_left fun js _ => ?_
  rw [Function.comp_apply, List.map_map]
  rfl

theorem delivers_of_run (hseeds : ∀ before, before <+: ops → seedsAfter 0 before < 2 ^ 64)
    {outs : List (List (Option ℕ))} {t : SecureRandom (Option ℕ)}
    (hrun : run some succeeds none start ops = .ok (outs, t)) : ∃ js, Delivers succeeds ops js := by
  obtain ⟨js, rfl, hsizes, htracks, -⟩ := start_tracks.run start_tracks.later_zero hseeds hrun
  refine ⟨js, fun source zero => ⟨_, run_places_ok source zero hrun⟩, hsizes, htracks.nodup, ?_⟩
  rintro before op rest rfl hop
  obtain ⟨outs₁, u, outs₂, hbefore, hafter, houts, hlen⟩ := run_append_inv hrun
  obtain ⟨out, v, outs', hstep, hrest, rfl⟩ := run_cons_inv hafter
  have hseeds' : ∀ after, after <+: op :: rest → seedsAfter (seedsAfter 0 before) after < 2 ^ 64 := by
    intro after hpre
    have := hseeds (before ++ after) ((List.prefix_append_right_inj before).mpr hpre)
    rwa [seedsAfter, List.foldl_append] at this
  obtain ⟨js₁, rfl, -, htracks₁, -⟩ := start_tracks.run start_tracks.later_zero
    (fun after hpre => hseeds after (hpre.trans (List.prefix_append before _))) hbefore
  obtain ⟨js₂, -, -, htracks₂, -⟩ := htracks₁.step htracks₁.later_zero (hseeds' [] List.nil_prefix) hstep
  obtain ⟨js₃, rfl, -, -, hge⟩ := htracks₂.run (htracks₁.later hop hstep)
    (fun after hpre => hseeds' (op :: after) (List.cons_prefix_cons.mpr ⟨rfl, hpre⟩)) hrest
  refine ⟨u.drawn, fun source zero => ⟨_, _, run_places_ok source zero hbefore, rfl⟩, ?_⟩
  have hdrop : js.drop (before.length + 1) = js₃ := by
    refine List.map_injective_iff.mpr (List.map_injective_iff.mpr fun _ _ h => Option.some.inj h) ?_
    rw [List.map_drop, houts, ← hlen, List.drop_append]
    simp
  rwa [hdrop]

theorem ends_of_run {fault : Fault} (hrun : run some succeeds none start ops = .error fault) :
    Ends succeeds ops fault := by
  obtain ⟨before, size, rest, outs, t, rfl, hbefore, hcause⟩ := run_error start_tracks.proper hrun
  refine ⟨before, size, rest, rfl, fun source zero => ⟨?_, ?_⟩⟩
  · rw [run_places, hrun]
    rfl
  · rw [run_places, hbefore]
    refine ⟨_, _, rfl, ?_⟩
    rwa [usable_map, List.length_map]

/-- While there are fewer calls of `add_seed` between two requests than an `int64` can tell apart, the requests are
filled with different bytes of the source, after an `add_seed` or a cleanup with new ones, or the program ends. -/
theorem requests_filled (succeeds : ℕ → Bool) (ops : List Op)
    (hseeds : ∀ before, before <+: ops → seedsAfter 0 before < 2 ^ 64) :
    (∃ js, Delivers succeeds ops js) ∨ ∃ fault, Ends succeeds ops fault := by
  rcases hrun : run some succeeds none start ops with fault | ⟨outs, t⟩
  · exact .inr ⟨fault, ends_of_run hrun⟩
  · exact .inl (delivers_of_run hseeds hrun)

/-- Some bytes, a large request after `add_seed`, and a byte after the cleanup. -/
theorem requests_filled_three :
    ∃ js, Delivers (fun _ => true) [.request 3, .addSeed, .request 600, .cleanup, .request 1] js := by
  have hall : ∀ before ∈ [Op.request 3, .addSeed, .request 600, .cleanup, .request 1].inits,
      seedsAfter 0 before < 2 ^ 64 := by decide
  rcases requests_filled (fun _ => true) [.request 3, .addSeed, .request 600, .cleanup, .request 1] fun before hbefore =>
    hall before (List.mem_inits before _ |>.mpr hbefore) with hdelivers | ⟨fault, before, size, rest, -, hends⟩
  · exact hdelivers
  · -- the run goes through
    have hruns : (run (fun _ => ()) (fun _ => true) () start
        [.request 3, .addSeed, .request 600, .cleanup, .request 1]).isOk = true := by decide +kernel
    rw [(hends (fun _ => ()) ()).1] at hruns
    cases hruns

theorem run_addSeed {α : Type u} (source : ℕ → α) (zero : α) : ∀ (n : ℕ) {s : SecureRandom α},
    s.seedGeneration < 2 ^ 64 → run source succeeds zero s (List.replicate n .addSeed) =
      .ok (List.replicate n [], { s with seedGeneration := (s.seedGeneration + n) % 2 ^ 64 })
  | 0, s, hs => by
    rw [Nat.add_zero, Nat.mod_eq_of_lt hs]
    rfl
  | n + 1, s, hs => by
    have hlt : (addSeed s).seedGeneration < 2 ^ 64 := Nat.mod_lt _ (by decide)
    have hrest := run_addSeed source zero n hlt
    have hcount : ((s.seedGeneration + 1) % 2 ^ 64 + n) % 2 ^ 64 = (s.seedGeneration + (n + 1)) % 2 ^ 64 := by omega
    rw [List.replicate_succ, run_cons_of rfl hrest, List.replicate_succ, ← hcount]
    rfl

set_option maxRecDepth 4000 in
/-- A request of 2^31 bytes ends at the `CHECK`; and after 2^64 calls of `add_seed` a byte is delivered that was
generated before them. -/
theorem requests_not_filled :
    run some (fun _ => true) none start [.request (2 ^ 31)] = .error .check ∧
      ∃ t outs u v, run some (fun _ => true) none start [.request 1] = .ok ([[some 0]], t) ∧ t.drawn = 512 ∧
        run some (fun _ => true) none t (List.replicate (2 ^ 64) .addSeed) = .ok (outs, u) ∧
        run some (fun _ => true) none u [.request 1] = .ok ([[some 1]], v) := by
  refine ⟨rfl, ?_⟩
  refine ⟨⟨some ((List.range' 0 512).map some), 1, 0, 0, 512, 1⟩, _, _, _, rfl, rfl,
    run_addSeed some none (2 ^ 64) (by decide), rfl⟩

end Outcomes

end SecureRandom

end TdUtils
