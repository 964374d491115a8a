import PagerDB.Lib.LittleEndian

/-! A byte memory with reads and writes of blocks and of little-endian 16-bit words: what a write
shows to a later read, inside the block and apart from it. -/
namespace MemoryLib

open LittleEndian

abbrev Memory := Nat → Octet

def read (m : Memory) (start len : Nat) : List Octet := (List.range len).map fun i => m (start + i)

def write (m : Memory) (start : Nat) (bytes : List Octet) : Memory := fun a =>
  if h : start ≤ a ∧ a - start < bytes.length then bytes[a - start] else m a

def word (m : Memory) (a : Nat) : Nat := (m a).val + 256 * (m (a + 1)).val

def setWord (m : Memory) (a value : Nat) : Memory := write m a (encode 2 value)

variable {m m' : Memory} {a b start len : Nat} {bytes : List Octet}

@[simp] theorem length_read (m : Memory) (start len : Nat) : (read m start len).length = len := by
  simp [read]

theorem getElem_read {i : Nat} (h : i < (read m start len).length) :
    (read m start len)[i] = m (start + i) := by simp [read]

theorem read_congr (same : ∀ i < len, m (a + i) = m' (b + i)) : read m a len = read m' b len := by
  apply List.ext_getElem
  · simp
  · intro i h h'
    rw [getElem_read, getElem_read]
    exact same i (by simpa using h)

theorem write_apart (apart : a < start ∨ start + bytes.length ≤ a) : write m start bytes a = m a := by
  unfold write
  rw [dif_neg]
  omega

theorem write_inside {i : Nat} (h : i < bytes.length) : write m start bytes (start + i) = bytes[i] := by
  unfold write
  rw [dif_pos (by omega)]
  congr 1
  omega

/-- A byte after a write depends on that byte alone, and not at all inside the block. -/
theorem write_congr (same : a < start ∨ start + bytes.length ≤ a → m a = m' a) :
    write m start bytes a = write m' start bytes a := by
  by_cases inside : start ≤ a ∧ a - start < bytes.length
  · simp only [write, dif_pos inside]
  · rw [write_apart (by omega), write_apart (by omega)]
    exact same (by omega)

theorem read_write_self (m : Memory) (start : Nat) (bytes : List Octet) :
    read (write m start bytes) start bytes.length = bytes := by
  apply List.ext_getElem
  · simp
  · intro i h h'
    rw [getElem_read, write_inside h']

theorem read_write_apart (apart : a + len ≤ start ∨ start + bytes.length ≤ a) :
    read (write m start bytes) a len = read m a len := by
  apply read_congr
  intro i h
  exact write_apart (by omega)

theorem write_nil (m : Memory) (start : Nat) : write m start [] = m := by
  funext a
  exact write_apart (by simp; omega)

theorem write_comm {other : List Octet} (apart : a + bytes.length ≤ b ∨ b + other.length ≤ a) :
    write (write m a bytes) b other = write (write m b other) a bytes := by
  funext c
  by_cases inside : b ≤ c ∧ c - b < other.length
  · have here : write m b other c = write (write m a bytes) b other c := by
      simp only [write, dif_pos inside]
    rw [@write_apart (write m b other) c a bytes (by omega), here]
  · by_cases inside' : a ≤ c ∧ c - a < bytes.length
    · have here : write m a bytes c = write (write m b other) a bytes c := by
        simp only [write, dif_pos inside']
      rw [@write_apart (write m a bytes) c b other (by omega), here]
    · rw [write_apart (by omega), write_apart (by omega), write_apart (by omega),
        write_apart (by omega)]

theorem write_read {src i : Nat} (h : i < len) :
    write m start (read m' src len) (start + i) = m' (src + i) := by
  rw [write_inside (by simpa using h), getElem_read]

theorem read_add (m : Memory) (a n k : Nat) : read m a (n + k) = read m a n ++ read m (a + n) k := by
  unfold read
  rw [List.range_add, List.map_append, List.map_map]
  simp [Function.comp_def, Nat.add_assoc]

theorem read_append {n k : Nat} {xs ys : List Octet} (h : read m a (n + k) = xs ++ ys)
    (len : xs.length = n) : read m a n = xs ∧ read m (a + n) k = ys := by
  rw [read_add] at h
  exact List.append_inj h (by simp [len])

/- Words. -/

theorem word_lt (m : Memory) (a : Nat) : word m a < 65536 := by
  have low := (m a).isLt
  have high := (m (a + 1)).isLt
  unfold word
  omega

theorem word_congr (low : m a = m' b) (high : m (a + 1) = m' (b + 1)) : word m a = word m' b := by
  rw [word, word, low, high]

theorem word_write_apart (apart : a + 2 ≤ start ∨ start + bytes.length ≤ a) :
    word (write m start bytes) a = word m a :=
  word_congr (write_apart (by omega)) (write_apart (by omega))

theorem setWord_apart {value : Nat} (apart : b < a ∨ a + 2 ≤ b) : setWord m a value b = m b :=
  write_apart (by simpa [setWord] using apart)

theorem setWord_congr {value : Nat} (same : b < a ∨ a + 2 ≤ b → m b = m' b) :
    setWord m a value b = setWord m' a value b :=
  write_congr (by simpa using same)

theorem word_setWord_self (m : Memory) (a value : Nat) : word (setWord m a value) a = value % 65536 := by
  have low : setWord m a value a = (encode 2 value)[0] :=
    @write_inside m a (encode 2 value) 0 (by simp)
  have high : setWord m a value (a + 1) = (encode 2 value)[1] :=
    @write_inside m a (encode 2 value) 1 (by simp)
  rw [word, low, high]
  simp only [encode, List.getElem_cons_zero, List.getElem_cons_succ]
  omega

theorem word_inj (same : word m a = word m' b) : m a = m' b ∧ m (a + 1) = m' (b + 1) := by
  have low := (m a).isLt
  have low' := (m' b).isLt
  unfold word at same
  constructor <;> apply Fin.ext <;> omega

theorem setWord_same {value : Nat} (same : word m' a = value) (inside : a ≤ b ∧ b < a + 2) :
    setWord m a value b = m' b := by
  have small := word_lt m' a
  have words : word (setWord m a value) a = word m' a := by
    rw [word_setWord_self, same, Nat.mod_eq_of_lt (by omega)]
  obtain ⟨low, high⟩ := word_inj words
  obtain rfl | rfl : b = a ∨ b = a + 1 := by omega
  · exact low
  · exact high

theorem word_setWord_apart {value : Nat} (apart : b + 2 ≤ a ∨ a + 2 ≤ b) :
    word (setWord m a value) b = word m b :=
  word_write_apart (by simpa [setWord] using apart)

theorem setWord_comm {v w : Nat} (apart : a + 2 ≤ b ∨ b + 2 ≤ a) :
    setWord (setWord m a v) b w = setWord (setWord m b w) a v :=
  write_comm (by simpa using apart)

theorem read_setWord_apart {value : Nat} (apart : b + len ≤ a ∨ a + 2 ≤ b) :
    read (setWord m a value) b len = read m b len :=
  read_write_apart (by simpa [setWord] using apart)

theorem word_of_read {n : Nat} (h : read m a 2 = encode 2 n) (small : n < 65536) : word m a = n := by
  have bytes : read m a 2 = [m a, m (a + 1)] := rfl
  have value := congrArg decode h
  rw [bytes, decode_encode_of_lt (by simpa using small)] at value
  simpa [decode, word] using value

end MemoryLib
