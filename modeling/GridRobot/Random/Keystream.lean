import GridRobot.Random.Source

/-!
# The keystream

The stream cipher ChaCha with twelve rounds as a source of draws (`keystream`). The key is drawn from a seed of 64 bits by a
permuted congruential generator, the block counter has 64 bits and starts at zero, and the nonce is zero. The same seed gives
the same words, and a draw is two of them.
-/

namespace GridRobot.Random

/-- A word with its bits turned `n` places to the left. -/
def rotateLeft (w : UInt32) (n : UInt32) : UInt32 := (w <<< n) ||| (w >>> (32 - n))

/-- A word with its bits turned `n` places to the right. -/
def rotateRight (w : UInt32) (n : UInt32) : UInt32 := rotateLeft w ((32 - n) % 32)

/-! ## The key of a seed -/

/-- The next state of the seed's generator. -/
def advanceSeed (state : UInt64) : UInt64 := state * 6364136223846793005 + 11634580027462260723

/-- The word that a state of the seed's generator puts out. -/
def seedWord (state : UInt64) : UInt32 :=
  rotateRight (((state >>> 18) ^^^ state) >>> 27).toUInt32 (state >>> 59).toUInt32

/-- The first `n` words behind a state of the seed's generator. -/
def seedWords : (n : Nat) → UInt64 → List UInt32
  | 0, _ => []
  | n + 1, state => seedWord (advanceSeed state) :: seedWords n (advanceSeed state)

theorem length_seedWords (n : Nat) (state : UInt64) : (seedWords n state).length = n := by
  induction n generalizing state with
  | zero => rfl
  | succ n ih => simp [seedWords, ih]

/-- A key of eight words. -/
abbrev Key := Vector UInt32 8

/-- The key of a seed. -/
def Key.ofSeed (seed : UInt64) : Key := ⟨(seedWords 8 seed).toArray, by simp [length_seedWords]⟩

/-! ## The blocks of a key -/

/-- The sixteen words of a block. -/
abbrev Block := Vector UInt32 16

/-- Mixes four words of a block. -/
def quarterRound (s : Block) (i j k l : Fin 16) : Block :=
  let a := s[i] + s[j]
  let d := rotateLeft (s[l] ^^^ a) 16
  let c := s[k] + d
  let b := rotateLeft (s[j] ^^^ c) 12
  let a := a + b
  let d := rotateLeft (d ^^^ a) 8
  let c := c + d
  let b := rotateLeft (b ^^^ c) 7
  (((s.set i a).set j b).set k c).set l d

/-- Mixes the four columns of a block and then its four diagonals. -/
def doubleRound (s : Block) : Block :=
  let s := quarterRound s 0 4 8 12
  let s := quarterRound s 1 5 9 13
  let s := quarterRound s 2 6 10 14
  let s := quarterRound s 3 7 11 15
  let s := quarterRound s 0 5 10 15
  let s := quarterRound s 1 6 11 12
  let s := quarterRound s 2 7 8 13
  quarterRound s 3 4 9 14

/-- The block that a key and a counter start from: four fixed words, the key, the counter and a nonce of zero. -/
def startBlock (key : Key) (counter : Nat) : Block :=
  #v[0x61707865, 0x3320646e, 0x79622d32, 0x6b206574,
    key[0], key[1], key[2], key[3], key[4], key[5], key[6], key[7],
    UInt32.ofNat counter, UInt32.ofNat (counter / 0x100000000), 0, 0]

/-- The block of a key at a counter: six double rounds, added to the block they started from. -/
def block (key : Key) (counter : Nat) : Block :=
  let start := startBlock key counter
  let mixed := doubleRound (doubleRound (doubleRound (doubleRound (doubleRound (doubleRound start)))))
  start.zipWith (· + ·) mixed

/-- The word number `n` of a key's stream: the words of one block after the other. -/
def word (key : Key) (n : Nat) : UInt32 := (block key (n / 16))[n % 16]

/-- The draw number `n` of a key's stream: two words, the lower half first, as a number of 64 bits. -/
def draw (key : Key) (n : Nat) : Nat := (word key (2 * n)).toNat + (word key (2 * n + 1)).toNat * 0x100000000

/-! ## Streams -/

/-- A stream that words are taken from: its key and the number of words that have been taken. -/
structure Stream where
  key : Key
  taken : Nat

namespace Stream

/-- The stream of a seed, from its beginning. -/
def ofSeed (seed : UInt64) : Stream := ⟨Key.ofSeed seed, 0⟩

/-- Takes a word. -/
def word (s : Stream) : UInt32 × Stream := (Random.word s.key s.taken, { s with taken := s.taken + 1 })

/-- Takes two words, the lower half first, as a number of 64 bits. -/
def draw (s : Stream) : Nat × Stream :=
  let (low, s) := s.word
  let (high, s) := s.word
  (low.toNat + high.toNat * 0x100000000, s)

/-- What is drawn is a number of 64 bits. -/
theorem draw_lt (s : Stream) : s.draw.1 < 18446744073709551616 := by
  have hlow := s.word.1.toNat_lt
  have hhigh := s.word.2.word.1.toNat_lt
  change s.word.1.toNat + s.word.2.word.1.toNat * 0x100000000 < 18446744073709551616
  omega

/-- As long as words are taken in twos, what is taken are the draws of the key one after the other. -/
theorem draw_eq (key : Key) (n : Nat) : draw ⟨key, 2 * n⟩ = (Random.draw key n, ⟨key, 2 * (n + 1)⟩) := rfl

end Stream

/-- The keystream as a source of draws. -/
def keystream : Source := ⟨Stream, Stream.ofSeed, Stream.draw, Stream.draw_lt⟩

/-- From a draw on, the draws of the keystream are those of its key. -/
theorem keystream_nth (key : Key) (k n : Nat) : keystream.nth n (⟨key, 2 * k⟩ : Stream) = draw key (k + n) := by
  induction n generalizing k with
  | zero => exact congrArg Prod.fst (Stream.draw_eq key k)
  | succ n ih =>
    have hbehind : keystream.nth (n + 1) (⟨key, 2 * k⟩ : Stream) = keystream.nth n (⟨key, 2 * (k + 1)⟩ : Stream) :=
      congrArg (fun d : Nat × Stream => keystream.nth n d.2) (Stream.draw_eq key k)
    rw [hbehind, ih, Nat.add_right_comm, Nat.add_assoc]

/-- The draws of the keystream for a seed are those of the seed's key. -/
theorem keystream_drawOf (seed : UInt64) (n : Nat) : keystream.drawOf seed n = draw (Key.ofSeed seed) n :=
  (keystream_nth (Key.ofSeed seed) 0 n).trans (by rw [Nat.zero_add])

end GridRobot.Random
