/-
  HorizonQp.Proofs.Qp.Rewriting — writing the tables of headers again.

  The tables are written over their regions whole, so what they held before does not matter:
  two blocks that differ in those regions only are the same block once a layout's tables are
  written into both (`writeHeaders?_congr`). Tables that are there already stay as they are
  (`writeHeaders?_held_eq`), and no other byte changes (`writeHeaders?_agree`).
-/

import HorizonQp.Proofs.Qp.Headers

namespace HorizonQp

open Block (AgreeBut)

namespace Layout

variable {l : Layout} {b b' : Block}

/-- Byte `k` of the block belongs to a table of headers. -/
def IsHeader (l : Layout) (b : Block) (k : Nat) : Prop :=
  ∃ kind, isTable kind ∧ b.within (l.region kind).offset (l.region kind).len k

theorem writeTable?_agree {kind : RegionKind} {ns : List Nat} (h : l.writeTable? kind ns b = some b') :
    AgreeBut (b.within (l.region kind).offset (l.region kind).len) b b' := by
  obtain ⟨hlen, hw⟩ := writeTable?_eq_some.mp h
  rw [← hlen, ← wordBytes_length]
  exact AgreeBut.of_write hw

/-- A table written over blocks that agree leaves blocks that agree, also about its region. -/
theorem writeTable?_settles (l : Layout) {away : Nat → Prop} (h : AgreeBut away b b') (kind : RegionKind) (ns : List Nat) :
    (l.writeTable? kind ns b = none ∧ l.writeTable? kind ns b' = none) ∨
      ∃ c c', l.writeTable? kind ns b = some c ∧ l.writeTable? kind ns b' = some c' ∧ c.base = b.base ∧
        AgreeBut (fun k => away k ∧ ¬ b.within (l.region kind).offset (l.region kind).len k) c c' := by
  have hsome : (l.writeTable? kind ns b').isSome = (l.writeTable? kind ns b).isSome := by
    unfold writeTable?
    simp only
    split
    · exact h.write?_isSome
    · rfl
  cases hc : l.writeTable? kind ns b with
  | none =>
    rw [hc] at hsome
    exact Or.inl ⟨rfl, Option.not_isSome_iff_eq_none.mp (by simp [hsome])⟩
  | some c =>
    rw [hc] at hsome
    obtain ⟨c', hc'⟩ := Option.isSome_iff_exists.mp hsome
    obtain ⟨hlen, hw⟩ := writeTable?_eq_some.mp hc
    have hagree := h.write hw (writeTable?_eq_some.mp hc').2
    rw [wordBytes_length, hlen] at hagree
    exact Or.inr ⟨c, c', rfl, hc', Block.base_write? hw, hagree⟩

/-- What the tables held does not matter once they are written. -/
theorem writeHeaders?_congr (h : AgreeBut (l.IsHeader b) b b') : l.writeHeaders? b' = l.writeHeaders? b := by
  unfold writeHeaders?
  obtain ⟨h1, h1'⟩ | ⟨b1, b1', h1, h1', e1, ha1⟩ :=
    writeTable?_settles l h .idxHeaders (l.idxHeaders.flatMap IdxHeader.words)
  · rw [h1, h1']
  obtain ⟨h2, h2'⟩ | ⟨b2, b2', h2, h2', e2, ha2⟩ :=
    writeTable?_settles l ha1 .matHeaders (l.matHeaders.flatMap MatHeader.words)
  · simp only [h1, h1', h2, h2', Option.bind_eq_bind, Option.bind_some, Option.bind_none]
  obtain ⟨h3, h3'⟩ | ⟨b3, b3', h3, h3', e3, ha3⟩ :=
    writeTable?_settles l ha2 .vecHeaders (l.vecHeaders.flatMap VecHeader.words)
  · simp only [h1, h1', h2, h2', h3, h3', Option.bind_eq_bind, Option.bind_some]
  have hb : b3' = b3 := by
    refine ha3.eq fun k hk => ?_
    obtain ⟨⟨⟨⟨kind, hkind, hin⟩, hn1⟩, hn2⟩, hn3⟩ := hk
    unfold Block.within at *
    rw [e1] at hn2
    rw [e2, e1] at hn3
    rcases hkind with rfl | rfl | rfl
    · exact hn1 hin
    · exact hn2 hin
    · exact hn3 hin
  simp only [h1, h1', h2, h2', h3, h3', hb, Option.bind_eq_bind, Option.bind_some]

/-- Writing the tables changes no other byte. -/
theorem writeHeaders?_agree (h : l.writeHeaders? b = some b') : AgreeBut (l.IsHeader b) b b' := by
  simp only [writeHeaders?, Option.bind_eq_bind, Option.bind_eq_some_iff] at h
  obtain ⟨b1, h1, b2, h2, h3⟩ := h
  have ha1 := writeTable?_agree h1
  have ha2 := writeTable?_agree h2
  have ha3 := writeTable?_agree h3
  have e1 := ha1.base
  have e2 := ha2.base.trans e1
  unfold Block.within at ha1 ha2 ha3
  rw [e1] at ha2
  rw [e2] at ha3
  exact ((ha1.mono fun k hk => ⟨_, Or.inl rfl, hk⟩).trans (ha2.mono fun k hk => ⟨_, Or.inr (Or.inl rfl), hk⟩)).trans
    (ha3.mono fun k hk => ⟨_, Or.inr (Or.inr rfl), hk⟩)

/-- Words written where they are stored change nothing. -/
theorem writeWords?_stored {o : Nat} {ns : List Nat} (hr : b.readWords? o ns.length = some ns)
    (hw : b.writeWords? o ns = some b') : b' = b := by
  have hbytes : ∀ p, b'.bytes[p]? = b.bytes[p]? := fun p =>
    Block.write_items_frame (by decide) encode_length (fun _ => Word.encode_decode) hr rfl hw fun _ _ _ _ => rfl
  exact AgreeBut.eq ⟨Block.base_write? hw, Block.size_write? hw, fun k _ => hbytes k⟩ fun _ h => h

/-- Tables that the block holds stay as they are. -/
theorem writeHeaders?_held_eq (h : l.HeldBy b) (hw : l.writeHeaders? b = some b') : b' = b := by
  simp only [writeHeaders?, Option.bind_eq_bind, Option.bind_eq_some_iff, writeTable?_eq_some] at hw
  obtain ⟨b1, ⟨-, h1⟩, b2, ⟨-, h2⟩, -, h3⟩ := hw
  cases writeWords?_stored h.idx h1
  cases writeWords?_stored h.mat h2
  exact writeWords?_stored h.vec h3

end Layout

end HorizonQp
