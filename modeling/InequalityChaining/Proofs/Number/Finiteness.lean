import InequalityChaining.Evaluation
import InequalityChaining.Proofs.Outcome

/-!
# Finite results

Arithmetic never yields an infinity or a value that is not a number: an operation whose float is
not finite reports an error. A float is finite if the exponent field of its pattern is not all
ones, so its pattern reads as a finite binary64 value.

## Main definitions

* `Number.isFinite` — integers, and reals that are not beyond the line

## Main results

* `Binary64.exists_finite_of_isFinite` — the pattern of a finite float
* `Number.isFinite_of_ofFloat` — what is accepted from a float is finite
* `Variadic.isFinite_of_apply`, `Binary.isFinite_of_apply` — so are all results of arithmetic
-/

open Float.Model (Format UnpackedFloat)

namespace InequalityChaining

/-! ### The exponent field -/

/-- The exponent field of a pattern. -/
theorem toNat_unpackExponent (bits : BitVec 64) :
    (@UnpackedFloat.unpackExponent Format.binary64 bits).toNat =
      bits.toNat / Nat.pow 2 52 % Nat.pow 2 11 := by
  simp [UnpackedFloat.unpackExponent, Nat.shiftRight_eq_div_pow]

/-- A pattern whose exponent field is not all ones has a finite reading. -/
theorem Binary64.exists_finite_of_field {bits : Nat}
    (h : bits / Nat.pow 2 52 % Nat.pow 2 11 ≠ 2047) :
    ∃ negative magnitude exponent, ofBits bits = .finite negative magnitude exponent := by
  rw [ofBits, if_neg h]
  split
  · exact ⟨_, _, _, rfl⟩
  · exact ⟨_, _, _, rfl⟩

/-- The pattern of a finite float has a finite reading. -/
theorem Binary64.exists_finite_of_isFinite {x : Float} (h : x.isFinite) :
    ∃ negative magnitude exponent, ofReal x = .finite negative magnitude exponent := by
  refine exists_finite_of_field fun ones => ?_
  have field : @UnpackedFloat.unpackExponent Format.binary64 x.toBits.toBitVec = -1#_ :=
    BitVec.eq_of_toNat_eq ((toNat_unpackExponent _).trans ones)
  change UnpackedFloat.isFinite (if @UnpackedFloat.unpackExponent Format.binary64
    x.toBits.toBitVec = -1#_ then _ else _) at h
  rw [if_pos field] at h
  split at h
  · cases h
  · cases h

/-! ### Arithmetic -/

namespace Number

/-- Whether the value lies on the line. -/
def isFinite (a : Number) : Bool :=
  match a.value with
  | .finite _ => true
  | _ => false

@[simp] theorem isFinite_int (i : Int64) : (int i).isFinite = true := rfl

theorem isDefined_of_isFinite {a : Number} (h : a.isFinite) : a.isDefined := by
  rw [isFinite] at h
  rw [isDefined]
  split at h
  · next finite => rw [finite]; rfl
  · cases h

variable {a b c : Number}

theorem isFinite_of_ofFloat {x : Float} (h : ofFloat x = .ok c) : c.isFinite := by
  rw [ofFloat] at h
  split at h
  · next finite =>
    obtain ⟨negative, magnitude, exponent, reading⟩ := Binary64.exists_finite_of_isFinite finite
    rw [← Except.ok.inj h, isFinite, value, reading]
    rfl
  · cases h

/-- Integers are finite, and so is what is accepted in their place if they do not fit. -/
theorem isFinite_of_exact_or {i? : Option Int64} {x : Float}
    (h : (match i? with
      | some i => Except.ok (int i)
      | none => ofFloat x) = .ok c) : c.isFinite := by
  cases i? with
  | some i => rw [← Except.ok.inj h, isFinite_int]
  | none => exact isFinite_of_ofFloat h

theorem isFinite_of_add (h : add a b = .ok c) : c.isFinite := by
  rw [add.eq_def] at h
  split at h
  · exact isFinite_of_exact_or h
  · exact isFinite_of_ofFloat h

theorem isFinite_of_sub (h : sub a b = .ok c) : c.isFinite := by
  rw [sub.eq_def] at h
  split at h
  · exact isFinite_of_exact_or h
  · exact isFinite_of_ofFloat h

theorem isFinite_of_mul (h : mul a b = .ok c) : c.isFinite := by
  rw [mul.eq_def] at h
  split at h
  · exact isFinite_of_exact_or h
  · exact isFinite_of_ofFloat h

theorem isFinite_of_div (h : div a b = .ok c) : c.isFinite := by
  rw [div] at h
  split at h
  · cases h
  · exact isFinite_of_ofFloat h

theorem isFinite_of_pow (h : pow a b = .ok c) : c.isFinite := by
  rw [pow.eq_def] at h
  split at h
  · cases h
  · exact isFinite_of_exact_or h

theorem isFinite_of_root (h : root a b = .ok c) : c.isFinite := by
  rw [root] at h
  split at h
  · cases h
  · exact isFinite_of_ofFloat h

end Number

theorem Variadic.isFinite_of_apply {op : Variadic} {a b c : Number} (h : op.apply a b = .ok c) :
    c.isFinite := by
  cases op with
  | sum => exact Number.isFinite_of_add h
  | product => exact Number.isFinite_of_mul h

theorem Binary.isFinite_of_apply {op : Binary} {a b c : Number} (h : op.apply a b = .ok c) :
    c.isFinite := by
  cases op with
  | difference => exact Number.isFinite_of_sub h
  | quotient => exact Number.isFinite_of_div h
  | power => exact Number.isFinite_of_pow h
  | root => exact Number.isFinite_of_root h

end InequalityChaining
