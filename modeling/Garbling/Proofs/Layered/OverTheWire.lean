-- Honest garbling with pinned keys, sent over the wire. A receiver with a
-- new instance over the same circuit and scheme reads the tables back,
-- takes them over, and then computes what the plain circuit computes.
import Garbling.Proofs.Binary.Lossless
import Garbling.Proofs.Layered.Preparation
import Garbling.Proofs.Layered.Received

namespace Garbling.Layered

variable {P G : Type}

/-! ## Sending the tables -/

theorem Honest.countable {c : Layered P G} {keys : KeyMaterial} {offset : Block}
    {zero : Nat → Block} (h : c.Honest keys offset zero)
    (hgates : Format.Countable c.inner.circuit.gates.length)
    (hsize : Format.Countable (IdentityGate.tableSize c.scheme)) : c.tables.Countable := by
  obtain ⟨_, hinner⟩ := h.inner
  have hside : ∀ {side : Side} {wires : Nat} {source target : Layer.Keys},
      side.Honest c.scheme wires source target → ∀ tables, side.tables = some tables →
        tables.Countable := by
    intro side wires source target hs tables htables
    rcases hs with ⟨_, hnone, _⟩ | ⟨found, _, hsome, hcount, hs⟩
    · rw [hnone] at htables
      cases htables
    · rw [hsome] at htables
      cases htables
      refine ⟨?_, ?_⟩
      · have := hs.size
        unfold Tables.size at this
        unfold Format.Countable
        omega
      · intro slot hslot table htable
        obtain ⟨found', hfound, hlen⟩ := hs.tableSize hslot
        rw [hfound] at htable
        cases htable
        rwa [hlen]
  refine ⟨⟨?_, ?_⟩, hside h.input, hside h.output⟩
  · have := hinner.slots
    unfold Tables.size at this
    rw [Layered.tables, this]
    exact hgates
  · intro slot hslot table htable
    subst htable
    rw [hinner.tableSize table hslot]
    unfold Format.Countable
    decide

/-! ## Pinned keys over the wire -/

section

variable {P G P' G' : Type} [Generator P] [Generator G]

/-- Garbling reports the pinned keys, and a receiver with a new instance reads its tables back
and takes them over. With the reported translation table it then computes the plain circuit
between the reported keys, if the sentinels of all identity tables differ. The lengths of what
is sent have to fit into words of 64 bits. -/
theorem received_tables_compute_the_plain_circuit {circuit : Circuit} {scheme : Scheme}
    (hscheme : scheme.Shipped) {start c c' : Layered P G} (hstart : start.IsNew circuit scheme)
    {inputKeys outputKeys : Option Bytes} (hprepared : start.Prepared inputKeys outputKeys c)
    {keys : KeyMaterial} (hgarbles : c.Garbles keys c')
    (hin : c'.input.SentinelsDiffer scheme) (hout : c'.output.SentinelsDiffer scheme)
    (hgates : Format.Countable circuit.gates.length)
    (hsize : Format.Countable (IdentityGate.tableSize scheme)) {receiver : Layered P' G'}
    (hreceiver : receiver.IsNew circuit scheme) :
    (∀ pinned ∈ inputKeys, keys.inputKeys = pinned) ∧
      (∀ pinned ∈ outputKeys, keys.outputKeys = pinned) ∧
      ∃ tables evaluator,
        Format.layeredTables.decode (Format.layeredTables.write c'.tables) = .ok tables ∧
        receiver.setTables tables = (.ok (), evaluator) ∧
        evaluator.inner.circuit = circuit ∧
        (evaluator.setTranslation keys.translation).ComputesPlainly keys.inputKeys
          keys.outputKeys := by
  obtain ⟨hcircuit, hhash, hsch, hinput, houtput⟩ := hstart.eq
  obtain ⟨hcircuit', hhash', hsch', _, _⟩ := hreceiver.eq
  obtain ⟨hfollows, hready, hready', hpinned, hpinned'⟩ := hprepared.ready hinput houtput
  obtain ⟨hfollows', hkept, hkept', offset, zero, honest⟩ := hgarbles.honest hready hready'
  have hall := hfollows.trans hfollows'
  have hc : c'.inner.circuit = circuit := by rw [hall.circuit, hcircuit]
  have hh : c'.inner.hash = fixedPairHash := by rw [hall.hash, hhash]
  have hs : c'.scheme = scheme := by rw [hall.scheme, hsch]
  have hkeys := honest.inputPinned
  have hkeys' := honest.outputPinned
  rw [hkept, hpinned] at hkeys
  rw [hkept', hpinned'] at hkeys'
  rw [← hs] at hin hout hsize hscheme
  rw [← hc] at hgates
  obtain ⟨evaluator, hset, hsame, hgarbled, hinner⟩ := honest.setTables (e := receiver)
    (hcircuit'.trans hc.symm) (hhash'.trans hh.symm) (hsch'.trans hs.symm)
  refine ⟨hkeys, hkeys', c'.tables, evaluator, ?_, hset, hsame.circuit.trans hc, ?_⟩
  · exact Format.lossless_layeredTables.decode (honest.countable hgates hsize)
  · have htranslated : (evaluator.setTranslation keys.translation).HasTablesOf c' :=
      ⟨hsame.circuit, hsame.hash, hsame.scheme, hsame.tables, hsame.input, hsame.output⟩
    obtain ⟨_, hcore⟩ := honest.inner
    refine Encodes.computesPlainly ((honest.encodes hscheme.lawful hin hout).received htranslated)
      hgarbled hinner ?_
    have ht := hcore.translates
    unfold FreeXor.Translates at ht ⊢
    rw [← honest.translation] at ht
    rw [htranslated.circuit]
    exact ht

end

theorem received_tables_compute_negation : ∃ keys c' tables evaluator,
    pinnedNegation.Garbles keys c' ∧ keys.inputKeys = negationKeys ∧
      keys.outputKeys = negationKeys ∧
      Format.layeredTables.decode (Format.layeredTables.write c'.tables) = .ok tables ∧
      newNegation.setTables tables = (.ok (), evaluator) ∧
      (evaluator.setTranslation keys.translation).ComputesPlainly negationKeys negationKeys := by
  obtain ⟨keys, c', hgarble, hin, hout⟩ := garble_pinnedNegation
  have hnew : newNegation.IsNew ⟨[1], [.not 0], [1]⟩ .block := ⟨{}, _, {}, rfl, rfl⟩
  have hprepared : newNegation.Prepared (some negationKeys) (some negationKeys) pinnedNegation :=
    .setOutputKeys (.setInputKeys .new rfl) rfl
  obtain ⟨hkeys, hkeys', tables, evaluator, hdecode, hset, _, h⟩ :=
    received_tables_compute_the_plain_circuit .block hnew hprepared (.random 7 _ hgarble) hin hout
      (show 1 < 0x10000000000000000 by decide) (show 64 < 0x10000000000000000 by decide) hnew
  have hinput := hkeys _ rfl
  have houtput := hkeys' _ rfl
  rw [hinput, houtput] at h
  exact ⟨keys, c', tables, evaluator, .random 7 _ hgarble, hinput, houtput, hdecode, hset, h⟩

end Layered

end Garbling
