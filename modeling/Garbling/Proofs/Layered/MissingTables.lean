-- When evaluation says that a circuit is not garbled: only if it has no
-- tables, or has a layer without any. With all its tables there, it may
-- fail for many reasons, but never for this one.
import Garbling.Proofs.EvaluationErrors

namespace Garbling

/-- A layer without tables says that the circuit is not garbled. -/
theorem Side.compute_eq_error {side : Side} (hlayered : side.layered = true)
    (htables : side.tables = none) (s : Scheme) (wires : Nat) (keys : Bytes) (m n : Nat) :
    side.compute s wires keys m n = .error .notGarbled := by
  unfold compute active
  rw [hlayered, htables]
  rfl

namespace Layered

variable {P G : Type}

/-- A circuit with all its tables never says that it is not garbled. -/
theorem avoids_compute {c : Layered P G} (hg : c.garbled = true) (hinner : c.inner.garbled = true)
    (hin : c.input.tables.isSome = c.input.layered)
    (hout : c.output.tables.isSome = c.output.layered) (keys : Bytes) :
    Avoids .notGarbled (c.compute keys) :=
  avoids_compute_of Error.not_onTheWay_notGarbled (fun _ => ⟨hg, hinner, hin, hout⟩) (by simp)

/-- An input layer without tables is noticed as soon as there are keys to evaluate on. -/
theorem compute_eq_notGarbled {c : Layered P G} (hg : c.garbled = true)
    (hlayered : c.input.layered = true) (htables : c.input.tables = none) {keys : Bytes}
    (hlen : keys.length = c.inner.inputCount * c.inputKeySize) :
    c.compute keys = .error .notGarbled := by
  rw [compute_eq hg hlen, Side.compute_eq_error hlayered htables]
  rfl

/-- An evaluation that succeeds goes through both sides. -/
theorem sides_of_compute {c : Layered P G} {keys : Bytes} {output : LayeredOutput}
    (h : c.compute keys = .ok output) :
    (∃ innerKeys, c.input.compute c.scheme c.inner.inputCount keys c.scheme.cipherSize
      FreeXor.keySize = .ok innerKeys) ∧
    ∃ inner, c.output.compute c.scheme c.inner.outputCount inner FreeXor.keySize
      c.scheme.cipherSize = .ok output.garbled := by
  obtain ⟨hg, hlen⟩ := guards_of_compute h
  rw [compute_eq hg hlen] at h
  obtain ⟨innerKeys, hin, h⟩ := bind_eq_ok.1 h
  obtain ⟨inner, _, h⟩ := bind_eq_ok.1 h
  obtain ⟨garbled, hout, h⟩ := bind_eq_ok.1 h
  have houtput := pure_eq_ok.1 h
  subst houtput
  exact ⟨⟨innerKeys, hin⟩, inner, hout⟩

end Layered

end Garbling
