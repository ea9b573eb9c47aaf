import Mathlib.Data.List.Induction
import Mathlib.Logic.Function.Basic

/-! # The queue of key codes

The circular queue of `booter/keyboard.c`.  Interrupts are off in `key_handler` and while
`key_queue_pop` looks at the queue, so that each of them is one step.

* **Overflow.**  Equal indices mean that the queue is empty.  When the array fills up, the keys in it
  are forgotten (`unread_foldl_keyHandler`). -/

namespace Pintos
open Function List

def KEYCODE_QUEUE_SIZE : ℕ := 128

def KEY_QUEUE_EMPTY : UInt8 := 0xFB

/-- `key_queue`, `queue_read_index` and `queue_write_index`. -/
structure KeyQueue where
  keys : ℕ → UInt8
  readIndex : ℕ
  writeIndex : ℕ
  read_lt : readIndex < KEYCODE_QUEUE_SIZE
  write_lt : writeIndex < KEYCODE_QUEUE_SIZE

/-- A key arrives, or a key is asked for. -/
inductive KeyEvent where
  | key (keycode : UInt8)
  | pop

namespace KeyQueue

def initKeyboard (keys : ℕ → UInt8) : KeyQueue := ⟨keys, 0, 0, by decide, by decide⟩

def keyHandler (q : KeyQueue) (keycode : UInt8) : KeyQueue :=
  ⟨update q.keys q.writeIndex keycode, q.readIndex, (q.writeIndex + 1) % KEYCODE_QUEUE_SIZE,
    q.read_lt, Nat.mod_lt _ (by decide)⟩

def keyQueuePop (q : KeyQueue) : UInt8 × KeyQueue :=
  if q.readIndex = q.writeIndex then (KEY_QUEUE_EMPTY, q)
  else (q.keys q.readIndex, ⟨q.keys, (q.readIndex + 1) % KEYCODE_QUEUE_SIZE, q.writeIndex,
    Nat.mod_lt _ (by decide), q.write_lt⟩)

/-- The queue, and what has been returned. -/
def step (s : KeyQueue × List UInt8) : KeyEvent → KeyQueue × List UInt8
  | .key k => (s.1.keyHandler k, s.2)
  | .pop => (s.1.keyQueuePop.2, s.2 ++ [s.1.keyQueuePop.1])

/-- A queue without a bound, and what it returns. -/
def fifoStep (s : List UInt8 × List UInt8) : KeyEvent → List UInt8 × List UInt8
  | .key k => (s.1 ++ [k], s.2)
  | .pop => (s.1.tail, s.2 ++ [s.1.headD KEY_QUEUE_EMPTY])

/-- The keys between the indices. -/
def unread (q : KeyQueue) : List UInt8 :=
  (range ((q.writeIndex + KEYCODE_QUEUE_SIZE - q.readIndex) % KEYCODE_QUEUE_SIZE)).map fun i =>
    q.keys ((q.readIndex + i) % KEYCODE_QUEUE_SIZE)

theorem length_unread_lt (q : KeyQueue) : q.unread.length < KEYCODE_QUEUE_SIZE := by
  rw [unread, length_map, length_range]
  exact Nat.mod_lt _ (by decide)

theorem unread_keyHandler (q : KeyQueue) (k : UInt8) : (q.keyHandler k).unread =
    if q.unread.length + 1 < KEYCODE_QUEUE_SIZE then q.unread ++ [k] else [] := by
  have hr := q.read_lt
  have hw := q.write_lt
  simp only [unread, length_map, length_range, keyHandler]
  unfold KEYCODE_QUEUE_SIZE at *
  obtain ⟨n, hn⟩ : ∃ n, n = (q.writeIndex + 128 - q.readIndex) % 128 := ⟨_, rfl⟩
  rw [← hn]
  split_ifs with h
  · rw [show ((q.writeIndex + 1) % 128 + 128 - q.readIndex) % 128 = n + 1 by omega, range_succ,
      map_append, map_singleton, show (q.readIndex + n) % 128 = q.writeIndex by omega, update_self]
    congr 1
    refine map_congr_left fun i hi => update_of_ne ?_ _ _
    have := mem_range.mp hi
    omega
  · rw [show ((q.writeIndex + 1) % 128 + 128 - q.readIndex) % 128 = 0 by omega]
    rfl

theorem keyQueuePop_eq (q : KeyQueue) :
    q.keyQueuePop.1 = q.unread.headD KEY_QUEUE_EMPTY ∧ q.keyQueuePop.2.unread = q.unread.tail := by
  have hr := q.read_lt
  have hw := q.write_lt
  unfold keyQueuePop unread KEYCODE_QUEUE_SIZE at *
  split_ifs with h
  · simp [h]
  · obtain ⟨n, hn⟩ : ∃ n, (q.writeIndex + 128 - q.readIndex) % 128 = n + 1 :=
      Nat.exists_eq_succ_of_ne_zero (by omega)
    simp only [hn, range_succ_eq_map, map_cons, map_map,
      show (q.writeIndex + 128 - (q.readIndex + 1) % 128) % 128 = n by omega]
    refine ⟨congrArg q.keys (by omega), map_congr_left fun i _ => congrArg q.keys ?_⟩
    omega

/-- What is left when keys arrive: only those after the array was filled up for the last time. -/
theorem unread_foldl_keyHandler (q : KeyQueue) (ks : List UInt8) :
    (ks.foldl keyHandler q).unread = (q.unread ++ ks).drop
      ((q.unread ++ ks).length / KEYCODE_QUEUE_SIZE * KEYCODE_QUEUE_SIZE) := by
  induction ks generalizing q with
  | nil =>
    rw [foldl_nil, append_nil, Nat.div_eq_of_lt q.length_unread_lt, Nat.zero_mul, drop_zero]
  | cons k ks ih =>
    have hlt := q.length_unread_lt
    rw [foldl_cons, ih, unread_keyHandler]
    split_ifs with h
    · rw [append_assoc, singleton_append]
    · have hfull : (q.unread ++ [k]).length = KEYCODE_QUEUE_SIZE := by
        rw [length_append, length_singleton]
        omega
      rw [nil_append, append_cons, length_append, hfull,
        Nat.add_div_left _ (by decide), Nat.succ_mul, Nat.add_comm, ← hfull,
        drop_length_add_append]

/-- **The queue of keys.**  It agrees with a queue without a bound exactly as long as fewer than
`KEYCODE_QUEUE_SIZE` keys are unread; what is left otherwise is an end of the unread keys, which has
`KEYCODE_QUEUE_SIZE - 1` keys only if the next key will fill the array up. -/
theorem agrees_iff (keys : ℕ → UInt8) (events : List KeyEvent) :
    ((∀ es, es <+: events → ∀ s, s = es.foldl step (initKeyboard keys, []) →
      (s.1.unread, s.2) = es.foldl fifoStep ([], [])) ↔
    ∀ es, es <+: events → (es.foldl fifoStep ([], [])).1.length < KEYCODE_QUEUE_SIZE) ∧
    ∀ (q : KeyQueue) (ks : List UInt8), (ks.foldl keyHandler q).unread = (q.unread ++ ks).drop
        ((q.unread ++ ks).length / KEYCODE_QUEUE_SIZE * KEYCODE_QUEUE_SIZE) ∧
      (KEYCODE_QUEUE_SIZE - 1 ≤ (ks.foldl keyHandler q).unread.length ↔
        (q.unread ++ ks).length % KEYCODE_QUEUE_SIZE = KEYCODE_QUEUE_SIZE - 1) := by
  refine ⟨⟨fun h es hes => ?_, ?_⟩, fun q ks => ⟨unread_foldl_keyHandler q ks, ?_⟩⟩
  · rw [← h es hes _ rfl]
    exact length_unread_lt _
  · rintro h es hes s rfl
    induction es using List.reverseRecOn with
    | nil => simp [unread, initKeyboard]
    | append_singleton es e ih =>
      have ih := ih ((prefix_append es [e]).trans hes)
      have hlt := h _ hes
      rw [foldl_append, foldl_append] at *
      simp only [foldl_cons, foldl_nil] at *
      rw [← ih] at hlt ⊢
      cases e with
      | key k =>
        simp only [fifoStep, length_append, length_singleton] at hlt
        simp only [step, fifoStep, unread_keyHandler, if_pos hlt]
      | pop => simp only [step, fifoStep, keyQueuePop_eq]
  · rw [unread_foldl_keyHandler, length_drop]
    unfold KEYCODE_QUEUE_SIZE
    omega

/-- 128 keys arrive, and none of them is returned. -/
theorem keys_forgotten : ((replicate 128 (KeyEvent.key 0x39) ++ [KeyEvent.pop]).foldl step
    (initKeyboard fun _ => 0, [])).2 = [KEY_QUEUE_EMPTY] := by
  decide +kernel

end KeyQueue

end Pintos
