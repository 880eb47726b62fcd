/-!
# A seeded shuffle

A stream of random words from a seed, and a shuffle that uses it. The words are those of the ChaCha stream cipher with
twelve rounds, keyed by eight words that a linear congruential generator makes from the seed. The shuffle swaps each
position with a random one up to it; several such choices are cut out of one random number while their product fits into
32 bits.

A `Shuffler` is any way to reorder what arrives together, with the words as its source, that neither loses nor adds
anything. Searches take one as a parameter; `Shuffler.seeded` is the shuffle of this module.
-/

namespace PetriCheck

/-- A stream of random words: the cipher's key, the number of the next block, and the words left of the last one. -/
structure Generator where
  key : List UInt32
  counter : Nat := 0
  buffer : List UInt32 := []
deriving Inhabited

namespace Generator

def rotateLeft (x : UInt32) (n : UInt32) : UInt32 := (x <<< n) ||| (x >>> (32 - n))

/-- Rotation to the right, by any number of bits. -/
def rotateRight (x : UInt32) (n : UInt32) : UInt32 := if n % 32 = 0 then x else (x >>> n) ||| (x <<< (32 - n))

/-! ## Seeding -/

/-- The next `n` words of the congruential generator with this state. -/
def expand : Nat → UInt64 → List UInt32
  | 0, _ => []
  | n + 1, state =>
    let state := state * 6364136223846793005 + 11634580027462260723
    let word := (((state >>> 18) ^^^ state) >>> 27).toUInt32
    rotateRight word (state >>> 59).toUInt32 :: expand n state

def ofSeed (seed : UInt64) : Generator := { key := expand 8 seed }

/-! ## The cipher -/

/-- Mixes four words of the cipher's state. -/
def quarterRound (s : Array UInt32) (a b c d : Nat) : Array UInt32 :=
  let x := s.getD a 0
  let y := s.getD b 0
  let z := s.getD c 0
  let w := s.getD d 0
  let x := x + y
  let w := rotateLeft (w ^^^ x) 16
  let z := z + w
  let y := rotateLeft (y ^^^ z) 12
  let x := x + y
  let w := rotateLeft (w ^^^ x) 8
  let z := z + w
  let y := rotateLeft (y ^^^ z) 7
  (((s.setIfInBounds a x).setIfInBounds b y).setIfInBounds c z).setIfInBounds d w

/-- The positions that are mixed together, first the columns and then the diagonals. -/
def rounds : List (Nat × Nat × Nat × Nat) :=
  [(0, 4, 8, 12), (1, 5, 9, 13), (2, 6, 10, 14), (3, 7, 11, 15),
   (0, 5, 10, 15), (1, 6, 11, 12), (2, 7, 8, 13), (3, 4, 9, 14)]

def doubleRound (s : Array UInt32) : Array UInt32 :=
  rounds.foldl (fun s (a, b, c, d) => quarterRound s a b c d) s

/-- The sixteen words of a block: six double rounds on the constants, the key and the block's number. -/
def block (key : List UInt32) (counter : Nat) : List UInt32 :=
  let start := [0x61707865, 0x3320646e, 0x79622d32, 0x6b206574] ++ key ++
    [counter.toUInt32, (counter / UInt32.size).toUInt32, 0, 0]
  let mixed := Nat.repeat doubleRound 6 start.toArray
  List.zipWith (· + ·) mixed.toList start

/-- The next random word. -/
def next (g : Generator) : UInt32 × Generator :=
  match g.buffer with
  | word :: buffer => (word, { g with buffer })
  | [] =>
    match block g.key g.counter with
    | word :: buffer => (word, { g with counter := g.counter + 1, buffer })
    | [] => (0, g)

/-- A random number below `n`: the high half of a word times `n`, with one more word to decide a carry. -/
def below (g : Generator) (n : Nat) : Nat × Generator :=
  let (word, g) := g.next
  let product := word.toNat * n
  let high := product / UInt32.size
  let low := product % UInt32.size
  if UInt32.size - n < low then
    let (word, g) := g.next
    (if UInt32.size ≤ low + word.toNat * n / UInt32.size then high + 1 else high, g)
  else (high, g)

/-! ## The shuffle -/

/-- Random choices left over from one random number: the number and how many choices it is good for. -/
structure Choices where
  chunk : Nat := 0
  left : Nat := 1

/-- Multiplies consecutive numbers from `factor` on into `bound` while the product fits into 32 bits; gives the product
and the number of factors. The first argument bounds how many are tried. -/
def widen : Nat → Nat → Nat → Nat × Nat
  | 0, bound, _ => (bound, 0)
  | fuel + 1, bound, factor =>
    if bound * factor < UInt32.size then
      let (bound, count) := widen fuel (bound * factor) (factor + 1)
      (bound, count + 1)
    else (bound, 0)

/-- Fills up the choices when there are none left for numbers below `m`. -/
def refill (g : Generator) (c : Choices) (m : Nat) : Choices × Generator :=
  if c.left = 0 then
    let (bound, count) := widen 32 m (m + 1)
    let (chunk, g) := g.below bound
    (⟨chunk, count + 1⟩, g)
  else (c, g)

/-- A random number below `m`, from choices that are not used up. -/
def choose (c : Choices) (m : Nat) : Nat × Choices :=
  if c.left ≤ 1 then (c.chunk, ⟨c.chunk, 0⟩) else (c.chunk % m, ⟨c.chunk / m, c.left - 1⟩)

/-- Swaps the next `n` positions from `i` on, each with a random one up to it. -/
def shuffleFrom {α : Type} : Nat → Nat → Choices → Array α → Generator → Array α × Generator
  | 0, _, _, v, g => (v, g)
  | n + 1, i, c, v, g =>
    let (c, g) := g.refill c (i + 1)
    let (j, c) := choose c (i + 1)
    shuffleFrom n (i + 1) c (v.swapIfInBounds i j) g

/-- Shuffles a list; a list of at most one item takes no random number. -/
def shuffle {α : Type} (g : Generator) (items : List α) : List α × Generator :=
  if items.length ≤ 1 then (items, g)
  else
    let (v, g) := shuffleFrom items.length 0 {} items.toArray g
    (v.toList, g)

/-! ## Nothing is lost -/

theorem swapIfInBounds_perm {α : Type} (v : Array α) (i j : Nat) : (v.swapIfInBounds i j).toList.Perm v.toList := by
  unfold Array.swapIfInBounds
  split
  · split
    · exact Array.perm_iff_toList_perm.mp (Array.swap_perm _ _)
    · exact List.Perm.refl _
  · exact List.Perm.refl _

/-- Each round swaps two positions. -/
theorem shuffleFrom_perm {α : Type} : ∀ (n i : Nat) (c : Choices) (v : Array α) (g : Generator),
    (shuffleFrom n i c v g).1.toList.Perm v.toList
  | 0, _, _, _, _ => List.Perm.refl _
  | n + 1, i, _, v, _ => (shuffleFrom_perm n (i + 1) _ _ _).trans (swapIfInBounds_perm v i _)

/-- The shuffle permutes, whatever its random numbers. -/
theorem shuffle_perm {α : Type} (g : Generator) (items : List α) : (g.shuffle items).1.Perm items := by
  unfold shuffle
  split
  · exact List.Perm.refl _
  · exact shuffleFrom_perm items.length 0 {} items.toArray g

end Generator

/-- A way to reorder what arrives together, with a stream of random words as its source. -/
structure Shuffler (α : Type) where
  shuffle : Generator → List α → List α × Generator
  perm : ∀ (g : Generator) (items : List α), (shuffle g items).1.Perm items

/-- The shuffle that swaps each position with a random one up to it. -/
def Shuffler.seeded {α : Type} : Shuffler α := ⟨Generator.shuffle, Generator.shuffle_perm⟩

end PetriCheck
