import Mathlib.Tactic

/-!
# Sums over a map

`mapSum w m` adds up the weight `w` of every value of an ordered map. An insertion under a new key
adds the weight of the value, and an erasure takes the weight of what was there away
(`mapSum_insert_of_none`, `mapSum_erase_of_some`). With both, a quantity that is charged and
credited along with a map is the sum over the map.
-/

namespace MapSum

variable {α β : Type*} {cmp : α → α → Ordering} [Std.TransCmp cmp] [Std.LawfulEqCmp cmp]
  {m : Std.ExtTreeMap α β cmp} {k : α} {v b : β} {w : β → ℕ}

/-- The sum of the weights of all values. -/
def mapSum (w : β → ℕ) (m : Std.ExtTreeMap α β cmp) : ℕ := (m.toList.map fun e ↦ w e.2).sum

theorem nodup_toList (m : Std.ExtTreeMap α β cmp) : m.toList.Nodup := by
  refine m.distinct_keys_toList.imp fun {a b} hne hab ↦ hne ?_
  rw [hab]
  exact Std.ReflCmp.compare_self

/-- The other entries, when one is set. -/
theorem getElem?_insert_of_ne {k' : α} (h : k ≠ k') : (m.insert k v)[k']? = m[k']? := by
  rw [Std.ExtTreeMap.getElem?_insert, if_neg fun hk ↦ h (Std.LawfulEqCmp.eq_of_compare hk)]

/-- The other entries, when one is taken out. -/
theorem getElem?_erase_of_ne {k' : α} (h : k ≠ k') : (m.erase k)[k']? = m[k']? := by
  rw [Std.ExtTreeMap.getElem?_erase, if_neg fun hk ↦ h (Std.LawfulEqCmp.eq_of_compare hk)]

/-- An entry that is set and taken out. -/
@[simp] theorem erase_insert (m : Std.ExtTreeMap α β cmp) (k : α) (v : β) :
    (m.insert k v).erase k = m.erase k := by
  refine Std.ExtTreeMap.ext_getElem? fun k' ↦ ?_
  rw [Std.ExtTreeMap.getElem?_erase, Std.ExtTreeMap.getElem?_insert, Std.ExtTreeMap.getElem?_erase]
  split <;> rfl

theorem erase_of_none (h : m[k]? = none) : m.erase k = m := by
  refine Std.ExtTreeMap.ext_getElem? fun k' ↦ ?_
  rw [Std.ExtTreeMap.getElem?_erase]
  split
  · rename_i hk
    obtain rfl := Std.LawfulEqCmp.eq_of_compare hk
    exact h.symm
  · rfl

omit [Std.LawfulEqCmp cmp] in
@[simp] theorem mapSum_empty : mapSum w (∅ : Std.ExtTreeMap α β cmp) = 0 := by
  rw [mapSum, Std.ExtTreeMap.toList_eq_nil_iff.2 rfl]
  rfl

/-- Taking an entry out. -/
theorem mapSum_erase_of_some (h : m[k]? = some v) : mapSum w m = w v + mapSum w (m.erase k) := by
  have hperm : m.toList.Perm ((k, v) :: (m.erase k).toList) := by
    have hnot : (k, v) ∉ (m.erase k).toList := by
      rw [Std.ExtTreeMap.mem_toList_iff_getElem?_eq_some, Std.ExtTreeMap.getElem?_erase_self]
      exact nofun
    refine (List.perm_ext_iff_of_nodup (nodup_toList m)
      (List.nodup_cons.2 ⟨hnot, nodup_toList _⟩)).2 fun ⟨k', v'⟩ ↦ ?_
    rw [List.mem_cons, Std.ExtTreeMap.mem_toList_iff_getElem?_eq_some,
      Std.ExtTreeMap.mem_toList_iff_getElem?_eq_some, Std.ExtTreeMap.getElem?_erase, Prod.mk_inj]
    split
    · rename_i hk
      obtain rfl := Std.LawfulEqCmp.eq_of_compare hk
      simp [h, eq_comm]
    · rename_i hk
      have hne : k' ≠ k := by
        rintro rfl
        exact hk Std.ReflCmp.compare_self
      simp [hne]
  rw [mapSum, (hperm.map _).sum_eq, List.map_cons, List.sum_cons, mapSum]

/-- A new entry. -/
theorem mapSum_insert_of_none (h : m[k]? = none) : mapSum w (m.insert k v) = w v + mapSum w m := by
  rw [mapSum_erase_of_some (v := v) Std.ExtTreeMap.getElem?_insert_self, erase_insert,
    erase_of_none h]

/-- A new value for an entry. -/
theorem mapSum_insert_of_some (h : m[k]? = some b) :
    mapSum w (m.insert k v) + w b = w v + mapSum w m := by
  rw [mapSum_erase_of_some (v := v) Std.ExtTreeMap.getElem?_insert_self, erase_insert,
    mapSum_erase_of_some h]
  ring

end MapSum
