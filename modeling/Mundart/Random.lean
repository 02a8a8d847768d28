/-!
# Random draws

A permuted congruential generator with 128 bits of state: a linear step, then a mixing of the high
half. Everything random in a program comes from its state, so a run is a function of its seed.
-/

namespace Mundart

/-- The state of the generator. -/
structure Random where
  state : Nat
  deriving DecidableEq, Repr

namespace Random

def word : Nat := Nat.pow 2 64

/-- The generator seeded with the two halves of its state. -/
def ofSeed (high low : Nat) : Random := ⟨(high * word + low) % (word * word)⟩

/-- The linear step. -/
def advance (r : Random) : Random :=
  ⟨(r.state * 0x2360ED051FC65DA44385DF649FCCF645 + 0x5851F42D4C957F2D14057B7EF767814F) % (word * word)⟩

/-- The 64 bits that a state shows. -/
def mix (r : Random) : Nat :=
  let high := r.state / word
  let low := r.state % word
  let h := high ^^^ (high / Nat.pow 2 32)
  let h := h * 0xda942042e4dd58b5 % word
  let h := h ^^^ (h / Nat.pow 2 48)
  h * (low ||| 1) % word

/-- One draw of 64 bits. -/
def draw (r : Random) : Nat × Random := (r.advance.mix, r.advance)

/-- Draws again while the low half of `draw * n` would make small numbers more likely than large
ones; the bound on the tries is far beyond any run of bad luck. -/
def drawFair (n : Nat) : Nat → Random → Nat × Random
  | 0, r => (0, r)
  | tries + 1, r =>
    let (x, r) := r.draw
    if x * n % word < word % n then drawFair n tries r else (x * n / word, r)

/-- A number below `n`. A power of two takes the low bits of one draw, any other bound the high half
of a product. -/
def below (n : Nat) (r : Random) : Nat × Random :=
  if n = Nat.pow 2 (Nat.log2 n) then
    let (x, r) := r.draw
    (x % n, r)
  else drawFair n 1000 r

end Random

end Mundart
