import CoreWar.Arena

/-!
# Runs of writes

Bytes written one behind the other change exactly the cells that they reach,
also where they run around the end of the arena.  The cell at `c` is the one at
distance `c - a` from the first address `a`, so the byte it gets is the one with
that index.
-/

namespace CoreWar
namespace Arena

theorem toNat_sub_eq_zero_iff {a c : UInt16} : (c - a).toNat = 0 ↔ a = c := by
  have ha := a.toNat_lt
  have hc := c.toNat_lt
  rw [UInt16.toNat_sub, ← UInt16.toNat_inj]
  omega

/-- One address further on, the distance is one less. -/
theorem toNat_sub_eq_succ {a c : UInt16} (h : a ≠ c) :
    (c - a).toNat = (c - (a + 1)).toNat + 1 := by
  have ha := a.toNat_lt
  have hc := c.toNat_lt
  have hne : a.toNat ≠ c.toNat := fun e => h (UInt16.toNat_inj.mp e)
  rw [UInt16.toNat_sub, UInt16.toNat_sub, UInt16.toNat_add]
  simp only [UInt16.reduceToNat]
  omega

/-- What a cell holds after bytes were written, as long as they do not run into
themselves. -/
theorem cell_writeBytes (m : Arena) (a c : UInt16) (pid : UInt8) {bs : List UInt8}
    (h : bs.length ≤ size) :
    (m.writeBytes a pid bs).cell c =
      match bs[(c - a).toNat]? with
      | some b => ⟨b, pid⟩
      | none => m.cell c := by
  induction bs generalizing m a with
  | nil => rfl
  | cons b bs ih =>
      have hlength : bs.length < size := by
        rw [List.length_cons] at h
        omega
      rw [writeBytes, ih _ _ (by omega)]
      by_cases hac : a = c
      · subst hac
        have hself : (a - (a + 1)).toNat = 65535 := by
          rw [UInt16.toNat_sub, UInt16.toNat_add]
          have ha := a.toNat_lt
          simp only [UInt16.reduceToNat]
          omega
        have hnone : bs[(a - (a + 1)).toNat]? = none := by
          rw [hself, List.getElem?_eq_none]
          unfold size UInt16.size at hlength
          omega
        rw [hnone, toNat_sub_eq_zero_iff.mpr rfl]
        simp
      · rw [toNat_sub_eq_succ hac, List.getElem?_cons_succ, cell_writeByte, if_neg hac]

/-- A program is loaded where it ends inside the arena. -/
theorem load_of_le {m : Arena} {a : UInt16} {program : List UInt8} {pid : UInt8}
    (h : a.toNat + program.length ≤ size) :
    m.load a program pid = .ok (m.writeBytes a pid program) := if_pos h

/-- Inside the arena the distance from the first address is a difference of
numbers. -/
theorem toNat_sub_of_le {a c : UInt16} (h : a.toNat ≤ c.toNat) :
    (c - a).toNat = c.toNat - a.toNat := by
  have ha := a.toNat_lt
  have hc := c.toNat_lt
  rw [UInt16.toNat_sub]
  omega

/-- A loaded program fills its cells. -/
theorem cell_writeBytes_of_inside {m : Arena} {a : UInt16} {pid : UInt8} {bs : List UInt8}
    (h : a.toNat + bs.length ≤ size) {k : Nat} (hk : k < bs.length) :
    (m.writeBytes a pid bs).cell (UInt16.ofNat (a.toNat + k)) = ⟨bs[k], pid⟩ := by
  have hsize : size = 65536 := rfl
  have hnat : (UInt16.ofNat (a.toNat + k)).toNat = a.toNat + k := by
    rw [UInt16.toNat_ofNat']
    omega
  have hdistance : (UInt16.ofNat (a.toNat + k) - a).toNat = k := by
    rw [toNat_sub_of_le (by omega), hnat]
    omega
  rw [cell_writeBytes m a _ pid (by omega), hdistance, List.getElem?_eq_getElem hk]

/-- A loaded program leaves all other cells alone. -/
theorem cell_writeBytes_of_outside {m : Arena} {a c : UInt16} {pid : UInt8} {bs : List UInt8}
    (h : a.toNat + bs.length ≤ size)
    (hc : c.toNat < a.toNat ∨ a.toNat + bs.length ≤ c.toNat) :
    (m.writeBytes a pid bs).cell c = m.cell c := by
  have hsize : size = 65536 := rfl
  have ha := a.toNat_lt
  have hlt := c.toNat_lt
  have hfar : bs.length ≤ (c - a).toNat := by
    rw [UInt16.toNat_sub]
    omega
  rw [cell_writeBytes m a c pid (by omega), List.getElem?_eq_none hfar]

end Arena
end CoreWar
