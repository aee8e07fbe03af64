-- Generators that a seed restarts. What such a generator answers after it
-- was keyed follows from the seed, whatever was asked of it before, and so
-- do the row orders that are drawn from it.
import Garbling.Layered.RowOrder

namespace Garbling

variable {G : Type} [Generator G]

/-! ## The same answers -/

namespace Generator

/-- The answers to some requests, one after the other. -/
def answers : G → List Nat → List (Except GeneratorError Bytes)
  | _, [] => []
  | g, n :: ns => (draw g n).1 :: answers (draw g n).2 ns

/-- Two generators that give the same answers to any requests. -/
def Alike (g g' : G) : Prop := ∀ ns, answers g ns = answers g' ns

theorem Alike.refl (g : G) : Alike g g := fun _ => rfl

/-- The next answer is the same, and so are all after it. -/
theorem Alike.draw {g g' rest : G} (h : Alike g g') {n : Nat}
    {answer : Except GeneratorError Bytes} (hdraw : Generator.draw g n = (answer, rest)) :
    ∃ rest', Generator.draw g' n = (answer, rest') ∧ Alike rest rest' := by
  have hfirst : (Generator.draw g n).1 = (Generator.draw g' n).1 := (List.cons.inj (h [n])).1
  have hrest : Alike (Generator.draw g n).2 (Generator.draw g' n).2 := fun ns =>
    (List.cons.inj (h (n :: ns))).2
  rw [hdraw] at hfirst hrest
  exact ⟨(Generator.draw g' n).2, Prod.ext hfirst.symm rfl, hrest⟩

end Generator

/-! ## Restarting -/

/-- A seed restarts the stream from its beginning: if it keys one generator of the type then it
keys all of them, and they give the same answers afterwards. -/
class Restarting (G : Type) [Generator G] : Prop where
  rekey : ∀ {g keyed : G} {seed : Bytes}, Generator.rekey g seed = .ok keyed → ∀ g' : G,
    ∃ keyed', Generator.rekey g' seed = .ok keyed' ∧ Generator.Alike keyed keyed'

/-- The streams do not keep anything of what they were before. -/
instance {kind : StreamKind} : Restarting (StreamGenerator kind) where
  rekey h _ := ⟨_, h, .refl _⟩

/-- The first bytes of the stream of a seed do not depend on the generator that is keyed. -/
theorem Restarting.draw [Restarting G] {g keyed next : G} {seed bytes : Bytes} {n : Nat}
    (hkey : Generator.rekey g seed = .ok keyed)
    (hdraw : Generator.draw keyed n = (.ok bytes, next)) (g' : G) :
    ∃ keyed' next', Generator.rekey g' seed = .ok keyed' ∧
      Generator.draw keyed' n = (.ok bytes, next') := by
  obtain ⟨keyed', hkey', halike⟩ := Restarting.rekey hkey g'
  obtain ⟨next', hdraw', _⟩ := halike.draw hdraw
  exact ⟨keyed', next', hkey', hdraw'⟩

/-! ## Row orders -/

namespace RowOrder

/-- Two sources of row orders that give the same orders to any tables. -/
inductive Alike : RowOrder G → RowOrder G → Prop
  | random (bits : Nat → Bool) : Alike (.random bits) (.random bits)
  | seeded {g g' : G} (h : Generator.Alike g g') : Alike (.seeded g) (.seeded g')

theorem Alike.next {order order' rest : RowOrder G} (h : order.Alike order')
    {zeroSecond : Except Error Bool} (hnext : order.next = (zeroSecond, rest)) :
    ∃ rest', order'.next = (zeroSecond, rest') ∧ rest.Alike rest' := by
  cases h with
  | random bits =>
    cases hnext
    exact ⟨_, rfl, .random _⟩
  | @seeded g g' h =>
    rcases hdraw : Generator.draw g 1 with ⟨answer, left⟩
    obtain ⟨left', hdraw', hleft⟩ := h.draw hdraw
    unfold RowOrder.next at hnext ⊢
    simp only [hdraw, hdraw'] at hnext ⊢
    cases answer with
    | error e =>
      cases hnext
      exact ⟨_, rfl, .seeded hleft⟩
    | ok bytes =>
      cases hnext
      exact ⟨_, rfl, .seeded hleft⟩

end RowOrder

end Garbling
