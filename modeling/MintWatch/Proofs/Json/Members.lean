import Mathlib
import MintWatch.Json.Value
import MintWatch.Proofs.Lists
/-!
# Members of an object

With distinct keys it does not matter in which order the members of an object stand: looking
up a key gives the value that stands beside it, and nothing if the key is left out.  Where a
text gives a key more than once the reader keeps one of its values, so the objects that are
read have distinct keys.
-/

namespace MintWatch
namespace Json

variable {members : List (String × Json)} {key : String} {value : Json}

def HaveDistinctKeys (members : List (String × Json)) : Prop :=
  (members.map Prod.fst).Nodup

/-- Whether no member has this key. -/
def LeaveOut (members : List (String × Json)) (key : String) : Prop :=
  ∀ value, (key, value) ∉ members

theorem find?_eq_some_iff_mem
    (hdistinct : HaveDistinctKeys members) :
    find? key members = some value ↔ (key, value) ∈ members := by
  have hpairwise : members.Pairwise fun first second => first.1 ≠ second.1 :=
    List.pairwise_map.mp hdistinct
  have hfound : ∀ member, (members.find? fun member => member.1 == key) = some member ↔
      member ∈ members ∧ member.1 = key := by
    intro member
    simpa only [beq_eq_decide] using find?_key_eq_some_iff hpairwise
  unfold find?
  simp only [Option.map_eq_some_iff, hfound, Prod.exists, exists_eq_right]

theorem find?_eq_none_iff_leaveOut :
    find? key members = none ↔ LeaveOut members key := by
  unfold find? LeaveOut
  rw [Option.map_eq_none_iff, List.find?_eq_none]
  simp only [Prod.forall, beq_iff_eq]
  constructor
  · intro hnone value hmember
    exact hnone key value hmember rfl
  · rintro hnone _ value hmember rfl
    exact hnone value hmember

/-! ## Members that are written more than once -/

theorem mem_put
    {member : String × Json}
    (hmember : member ∈ put key value members) :
    member = (key, value) ∨ member ∈ members := by
  induction members with
  | nil => exact .inl (List.mem_singleton.mp hmember)
  | cons first rest ih =>
      rw [put] at hmember
      split at hmember
      · rcases List.mem_cons.mp hmember with hsame | hrest
        · exact .inl hsame
        · exact .inr (List.mem_cons_of_mem _ hrest)
      · rcases List.mem_cons.mp hmember with rfl | hrest
        · exact .inr List.mem_cons_self
        · exact (ih hrest).imp_right (List.mem_cons_of_mem _)

theorem haveDistinctKeys_put
    (hdistinct : HaveDistinctKeys members) :
    HaveDistinctKeys (put key value members) := by
  induction members with
  | nil => simp [put, HaveDistinctKeys]
  | cons first rest ih =>
      simp only [HaveDistinctKeys, List.map_cons, List.nodup_cons] at hdistinct
      rw [put]
      split
      · next hkey => exact List.nodup_cons.mpr ⟨hkey ▸ hdistinct.1, hdistinct.2⟩
      · next hkey =>
        refine List.nodup_cons.mpr ⟨?_, ih hdistinct.2⟩
        intro hagain
        obtain ⟨member, hmember, hsame⟩ := List.mem_map.mp hagain
        rcases mem_put hmember with rfl | hrest
        · exact hkey hsame.symm
        · exact hdistinct.1 (List.mem_map.mpr ⟨member, hrest, hsame⟩)

/-- What is kept while the members are taken in, one after the other. -/
theorem foldl_put
    (members kept : List (String × Json)) :
    (HaveDistinctKeys kept →
      HaveDistinctKeys (members.foldl (fun kept member => put member.1 member.2 kept) kept)) ∧
    (∀ member ∈ members.foldl (fun kept member => put member.1 member.2 kept) kept,
      member ∈ kept ∨ member ∈ members) := by
  induction members generalizing kept with
  | nil => exact ⟨id, fun _ hkept => .inl hkept⟩
  | cons first rest ih =>
      obtain ⟨hdistinct, hmembers⟩ := ih (put first.1 first.2 kept)
      refine ⟨fun hkept => hdistinct (haveDistinctKeys_put hkept), ?_⟩
      intro member hmember
      rcases hmembers member hmember with hput | hrest
      · rcases mem_put hput with rfl | hkept
        · exact .inr List.mem_cons_self
        · exact .inl hkept
      · exact .inr (List.mem_cons_of_mem _ hrest)

theorem haveDistinctKeys_lastOfEach
    (members : List (String × Json)) :
    HaveDistinctKeys (lastOfEach members) :=
  (foldl_put members []).1 List.nodup_nil

theorem mem_of_mem_lastOfEach
    {member : String × Json}
    (hmember : member ∈ lastOfEach members) :
    member ∈ members :=
  ((foldl_put members []).2 member hmember).resolve_left List.not_mem_nil

theorem put_of_leaveOut
    (hleft : LeaveOut members key) :
    put key value members = members ++ [(key, value)] := by
  induction members with
  | nil => rfl
  | cons first rest ih =>
      have hother : first.1 ≠ key := by
        rintro rfl
        exact hleft first.2 List.mem_cons_self
      have hrest : LeaveOut rest key := fun value hmember =>
        hleft value (List.mem_cons_of_mem _ hmember)
      rw [put, if_neg hother, ih hrest, List.cons_append]

theorem foldl_put_of_haveDistinctKeys
    (members kept : List (String × Json))
    (hdistinct : HaveDistinctKeys (kept ++ members)) :
    members.foldl (fun kept member => put member.1 member.2 kept) kept = kept ++ members := by
  induction members generalizing kept with
  | nil => simp
  | cons first rest ih =>
      have hnodup : (kept.map Prod.fst ++ first.1 :: rest.map Prod.fst).Nodup := by
        simpa [HaveDistinctKeys] using hdistinct
      have hleft : LeaveOut kept first.1 := fun value hmember =>
        List.disjoint_of_nodup_append hnodup (List.mem_map.mpr ⟨_, hmember, rfl⟩)
          List.mem_cons_self
      have hmoved : kept ++ first :: rest = kept ++ [(first.1, first.2)] ++ rest := by simp
      rw [hmoved] at hdistinct ⊢
      rw [List.foldl_cons, put_of_leaveOut hleft, ih _ hdistinct]

theorem lastOfEach_of_haveDistinctKeys
    (hdistinct : HaveDistinctKeys members) :
    lastOfEach members = members :=
  foldl_put_of_haveDistinctKeys members [] hdistinct

end Json
end MintWatch
