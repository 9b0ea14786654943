import H713.Lib.Bytes

/-!
# Lib.Footprint

Handlers on a byte memory, which return or end in `BUG()`, and the bytes they leave alone: `Keeps A m m'` says that
no byte of the set `A` has changed.
-/

namespace H713

open Bytes

def Misses (A : Nat → Prop) (a n : Nat) : Prop := ∀ b, A b → ¬ (a ≤ b ∧ b < a + n)

theorem Misses.sub {A : Nat → Prop} {a n a' n' : Nat} (h : Misses A a n) (h1 : a ≤ a') (h2 : a' + n' ≤ a + n) :
    Misses A a' n' := fun b hb hin => h b hb (by omega)

theorem Misses.mono {A B : Nat → Prop} {a n : Nat} (h : Misses A a n) (hAB : ∀ b, B b → A b) : Misses B a n :=
  fun b hb => h b (hAB b hb)

/-- The memory `m'` has the bytes of `m` on `A`. -/
def Keeps (A : Nat → Prop) (m m' : Buf) : Prop := ∀ a, A a → m' a = m a

namespace Keeps

variable {A B : Nat → Prop} {m m' m'' : Buf} {a n v : Nat}

theorem refl : Keeps A m m := fun _ _ => rfl

theorem trans (h : Keeps A m m') (h' : Keeps A m' m'') : Keeps A m m'' := fun a ha => (h' a ha).trans (h a ha)

theorem mono (h : Keeps A m m') (hAB : ∀ b, B b → A b) : Keeps B m m' := fun b hb => h b (hAB b hb)

theorem wr (h : Misses A a n) : Keeps A m (wr m a n v) := fun b hb => if_neg (h b hb)

theorem wr_wr (h : Keeps A m m') : Keeps A (Bytes.wr m a n v) (Bytes.wr m' a n v) := by
  intro b hb
  simp only [Bytes.wr]
  split
  · rfl
  · exact h b hb

theorem rd (h : Keeps A m m') (hin : ∀ b, a ≤ b → b < a + n → A b) : rd m' a n = rd m a n :=
  rd_congr fun b h1 h2 => h b (hin b h1 h2)

end Keeps

inductive Halt where
  | ret (m : Buf)
  | bug (m : Buf)

namespace Halt

def mem : Halt → Buf
  | ret m | bug m => m

def returned : Halt → Bool
  | ret _ => true
  | bug _ => false

def andThen : Halt → (Buf → Halt) → Halt
  | ret m, f => f m
  | bug m, _ => bug m

theorem keeps_andThen {A : Nat → Prop} {m : Buf} {x : Halt} {f : Buf → Halt} (hx : Keeps A m x.mem)
    (hf : ∀ m', Keeps A m m' → Keeps A m' (f m').mem) : Keeps A m (x.andThen f).mem := by
  cases x with
  | ret m' => exact hx.trans (hf m' hx)
  | bug m' => exact hx

end Halt

end H713
