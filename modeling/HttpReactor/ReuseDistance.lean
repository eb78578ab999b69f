import HttpReactor.LruStore
import Mathlib.Data.List.Dedup
import Mathlib.Data.List.Induction

/-!
# What a least-recently-used store holds

An access loads a key and, on a miss, inserts its content. After any accesses to an
empty store it holds the longest suffix that fits of the accessed keys in the order of
their last accesses. A key is therefore held exactly when its size and the sizes of the
different keys accessed since fit together, and a larger store holds no less.
-/

namespace HttpReactor.LruStore

variable {κ ν : Type*} (size : ν → ℕ)

theorem dropToFit_suffix {capacity n : ℕ} (hn : n ≤ capacity) (es : Entries κ ν) :
    ∃ xs, es = xs ++ dropToFit size capacity n es ∧
      total size (dropToFit size capacity n es) + n ≤ capacity ∧
      ∀ e ∈ xs.getLast?, capacity < size e.2 + total size (dropToFit size capacity n es) + n := by
  obtain ⟨k, hk, hfit, hmin⟩ := dropToFit_shortest size hn es
  refine ⟨es.take k, by rw [hk, List.take_append_drop], hk ▸ hfit, fun e he => ?_⟩
  cases k with
  | zero => simp at he
  | succ k =>
    have hlt : k < es.length := by
      by_contra hlen
      have hnil : es.drop k = [] := List.drop_eq_nil_of_le (by omega)
      have := hmin k (by omega)
      rw [hnil, total_nil] at this
      omega
    rw [List.take_add_one, List.getElem?_eq_getElem hlt, Option.toList_some,
      List.getLast?_concat, Option.mem_some] at he
    have hover := hmin k (by omega)
    rw [List.drop_eq_getElem_cons hlt, total_cons, he] at hover
    rwa [hk]

theorem dropToFit_append {capacity n : ℕ} {xs ys : Entries κ ν}
    (h : ∀ e ∈ xs.getLast?, capacity < size e.2 + total size ys + n) :
    dropToFit size capacity n (xs ++ ys) = dropToFit size capacity n ys := by
  induction xs with
  | nil => rfl
  | cons x xs ih =>
    have hover : ¬ total size (x :: (xs ++ ys)) + n ≤ capacity := by
      rcases List.eq_nil_or_concat xs with rfl | ⟨xs, e, rfl⟩
      · have := h x (by simp)
        rw [List.nil_append, total_cons]
        omega
      · have := h e (by simp [List.getLast?_cons])
        simp only [List.concat_eq_append, total_cons, total_append, total_nil]
        omega
    rw [List.cons_append, dropToFit_cons_of_not_fits size hover]
    refine ih fun e he => h e ?_
    cases xs with
    | nil => simp at he
    | cons y ys => rwa [List.getLast?_cons_cons]

theorem dropToFit_concat {capacity : ℕ} {e : κ × ν} (he : size e.2 ≤ capacity)
    (es : Entries κ ν) :
    dropToFit size capacity 0 (es ++ [e]) = dropToFit size capacity (size e.2) es ++ [e] := by
  induction es with
  | nil => simp [dropToFit, he]
  | cons x es ih =>
    have ht : total size (x :: (es ++ [e])) + 0 = total size (x :: es) + size e.2 := by
      simp only [total_cons, total_append, total_nil]
      omega
    rw [List.cons_append]
    simp only [dropToFit, ht]
    split_ifs with h
    · rfl
    · exact ih

theorem mem_dropToFit_iff {capacity : ℕ} {e : κ × ν} {ys : Entries κ ν} (hy : e ∉ ys)
    (xs : Entries κ ν) :
    e ∈ dropToFit size capacity 0 (xs ++ e :: ys) ↔ size e.2 + total size ys ≤ capacity := by
  induction xs with
  | nil =>
    rw [List.nil_append, dropToFit, total_cons, Nat.add_zero]
    split_ifs with h
    · exact iff_of_true List.mem_cons_self h
    · refine iff_of_false (fun hm => hy ?_) h
      obtain ⟨zs, hz, -⟩ := dropToFit_suffix size (Nat.zero_le capacity) ys
      rw [hz]
      exact List.mem_append_right _ hm
  | cons x xs ih =>
    rw [List.cons_append, dropToFit]
    split_ifs with h
    · refine iff_of_true (by simp) ?_
      simp only [total_cons, total_append] at h
      omega
    · exact ih

def item (content : κ → ν) (k : κ) : κ × ν := (k, content k)

theorem map_item_keys (content : κ → ν) (ks : List κ) :
    (ks.map (item content)).map Prod.fst = ks := by
  rw [List.map_map]
  exact List.map_id ks

theorem eq_item_of_mem {content : κ → ν} {ks : List κ} {e : κ × ν}
    (h : e ∈ ks.map (item content)) : e = item content e.1 := by
  obtain ⟨k, -, rfl⟩ := List.mem_map.mp h
  rfl

variable [DecidableEq κ]

theorem dedup_concat (ks : List κ) (k : κ) :
    (ks ++ [k]).dedup = ks.dedup.filter (fun k' => k' ≠ k) ++ [k] := by
  induction ks with
  | nil => rfl
  | cons a ks ih =>
    rw [List.cons_append]
    by_cases ha : a ∈ ks
    · rw [List.dedup_cons_of_mem (List.mem_append_left _ ha), List.dedup_cons_of_mem ha, ih]
    · rw [List.dedup_cons_of_notMem ha]
      by_cases hk : a = k
      · subst hk
        rw [List.dedup_cons_of_mem (by simp), List.filter_cons_of_neg (by simp), ih]
      · rw [List.dedup_cons_of_notMem (by simp [ha, hk]), List.filter_cons_of_pos (by simp [hk]),
          ih, List.cons_append]

variable (content : κ → ν) (capacity : ℕ)

def access (es : Entries κ ν) (k : κ) : Entries κ ν :=
  match load k es with
  | some r => r.2
  | none => (insert size capacity k (content k) es).getD es

def recent (ks : List κ) : List κ := (ks.filter fun k => size (content k) ≤ capacity).dedup

/-- The room that the different keys among `ks` take together. -/
def footprint (ks : List κ) : ℕ := total size ((recent size content capacity ks).map (item content))

variable {content capacity}

theorem recent_concat {k : κ} (hk : size (content k) ≤ capacity) (ks : List κ) :
    recent size content capacity (ks ++ [k]) =
      (recent size content capacity ks).filter (fun k' => k' ≠ k) ++ [k] := by
  rw [recent, List.filter_append, List.filter_cons_of_pos (by simpa using hk), List.filter_nil,
    dedup_concat, recent]

theorem recent_concat_of_not_fits {k : κ} (hk : ¬ size (content k) ≤ capacity) (ks : List κ) :
    recent size content capacity (ks ++ [k]) = recent size content capacity ks := by
  rw [recent, List.filter_append, List.filter_cons_of_neg (by simpa using hk), List.filter_nil,
    List.append_nil, recent]

theorem map_item_filter (ks : List κ) (k : κ) :
    (ks.filter fun k' => k' ≠ k).map (item content) =
      (ks.map (item content)).filter fun e => e.1 ≠ k := by
  rw [List.filter_map]
  rfl

theorem access_held {ks : List κ} {k : κ} (hnd : ks.Nodup)
    (hk : k ∈ (dropToFit size capacity 0 (ks.map (item content))).map Prod.fst) :
    access size content capacity (dropToFit size capacity 0 (ks.map (item content))) k =
      dropToFit size capacity 0 ((ks.filter (fun k' => k' ≠ k) ++ [k]).map (item content)) := by
  obtain ⟨xs, hes, hfit, hlast⟩ :=
    dropToFit_suffix size (Nat.zero_le capacity) (ks.map (item content))
  generalize dropToFit size capacity 0 (ks.map (item content)) = held at *
  obtain ⟨e, he, hek⟩ := List.mem_map.mp hk
  have hitem : e = item content k := hek ▸ eq_item_of_mem (hes ▸ List.mem_append_right xs he)
  subst hitem
  obtain ⟨ys, zs, rfl⟩ := List.append_of_mem he
  have hkeys : ((xs ++ (ys ++ item content k :: zs)).map Prod.fst).Nodup := by
    rw [← hes, map_item_keys]
    exact hnd
  have hnd' : ((ys ++ item content k :: zs).map Prod.fst).Nodup := by
    rw [List.map_append] at hkeys
    exact (List.nodup_append.mp hkeys).2.1
  have hload : load k (ys ++ item content k :: zs) =
      some (content k, ys ++ zs ++ [item content k]) := load_middle hnd'
  have hfilter : (xs ++ (ys ++ item content k :: zs)).filter (fun e => e.1 ≠ k) =
      xs ++ (ys ++ zs) := by
    have hrest : k ∉ (xs ++ (ys ++ zs)).map Prod.fst := by
      have hp : (xs ++ (ys ++ item content k :: zs)).Perm
          (item content k :: (xs ++ (ys ++ zs))) := by
        rw [← List.append_assoc, ← List.append_assoc]
        exact List.perm_middle
      exact (List.nodup_cons.mp ((hp.map Prod.fst).nodup_iff.mp hkeys)).1
    have hne : ∀ e ∈ xs ++ (ys ++ zs), e.1 ≠ k := fun e he hek =>
      hrest (List.mem_map.mpr ⟨e, he, hek⟩)
    rw [List.filter_append, List.filter_append, List.filter_cons_of_neg (by simp [item]),
      ← List.filter_append, ← List.filter_append, List.filter_eq_self]
    exact fun e he => by simpa using hne e he
  have htotal : total size (ys ++ zs ++ [item content k]) =
      total size (ys ++ item content k :: zs) := by
    simp only [total_append, total_cons, total_nil]
    omega
  have hmoved : (ks.filter (fun k' => k' ≠ k) ++ [k]).map (item content) =
      xs ++ (ys ++ zs ++ [item content k]) := by
    rw [List.map_append, map_item_filter, hes, hfilter, List.append_assoc]
    rfl
  rw [hmoved, dropToFit_append size (by rwa [htotal]), dropToFit_of_fits size (by rwa [htotal]),
    access, hload]

theorem access_dropped {ks : List κ} {k : κ} (hk : size (content k) ≤ capacity)
    (hm : k ∉ (dropToFit size capacity 0 (ks.map (item content))).map Prod.fst) :
    access size content capacity (dropToFit size capacity 0 (ks.map (item content))) k =
      dropToFit size capacity 0 ((ks.filter (fun k' => k' ≠ k) ++ [k]).map (item content)) := by
  -- A miss drops just enough of what is held, whatever the key's place before the cut was.
  obtain ⟨xs, hes, -, hlast⟩ :=
    dropToFit_suffix size (Nat.zero_le capacity) (ks.map (item content))
  generalize dropToFit size capacity 0 (ks.map (item content)) = held at *
  have hheld : held.filter (fun e => e.1 ≠ k) = held := by
    rw [List.filter_eq_self]
    intro e he
    simpa using fun hek => hm (List.mem_map.mpr ⟨e, he, hek⟩)
  have hinsert : access size content capacity held k =
      dropToFit size capacity (size (content k)) held ++ [item content k] := by
    rw [access, load_of_notMem hm, insert, if_neg (by simpa [hm] using hk)]
    rfl
  have hmoved : (ks.filter (fun k' => k' ≠ k) ++ [k]).map (item content) =
      (xs.filter fun e => e.1 ≠ k) ++ held ++ [item content k] := by
    rw [List.map_append, map_item_filter, hes, List.filter_append, hheld]
    rfl
  have hsize : size (item content k).2 ≤ capacity := hk
  rw [hinsert, hmoved, dropToFit_concat size hsize]
  refine congrArg (fun es => es ++ [item content k]) ?_
  refine (dropToFit_append size fun e he => ?_).symm
  rcases List.eq_nil_or_concat xs with rfl | ⟨xs, x, rfl⟩
  · simp at he
  · rw [List.concat_eq_append] at hlast he hes
    have hx := hlast x (by simp)
    by_cases hxk : x.1 = k
    · have hxm : x ∈ ks.map (item content) := by rw [hes]; simp
      have hitem : x = item content k := hxk ▸ eq_item_of_mem hxm
      have hxs : size x.2 = size (content k) := by rw [hitem]; rfl
      change capacity < size e.2 + total size held + size (content k)
      omega
    · rw [List.filter_append, List.filter_cons_of_pos (by simpa using hxk), List.filter_nil,
        List.getLast?_concat, Option.mem_some] at he
      rw [← he]
      change capacity < size x.2 + total size held + size (content k)
      omega

theorem access_recent (ks : List κ) (k : κ) :
    access size content capacity
        (dropToFit size capacity 0 ((recent size content capacity ks).map (item content))) k =
      dropToFit size capacity 0
        ((recent size content capacity (ks ++ [k])).map (item content)) := by
  by_cases hk : size (content k) ≤ capacity
  · rw [recent_concat size hk]
    by_cases hm : k ∈ (dropToFit size capacity 0
        ((recent size content capacity ks).map (item content))).map Prod.fst
    · exact access_held size (List.nodup_dedup _) hm
    · exact access_dropped size hk hm
  · rw [recent_concat_of_not_fits size hk]
    have hm : k ∉ (dropToFit size capacity 0
        ((recent size content capacity ks).map (item content))).map Prod.fst := by
      intro hm
      obtain ⟨xs, hes, -⟩ := dropToFit_suffix size (Nat.zero_le capacity)
        ((recent size content capacity ks).map (item content))
      have hmem : k ∈ recent size content capacity ks := by
        rw [← map_item_keys content (recent size content capacity ks), hes,
          List.map_append]
        exact List.mem_append_right _ hm
      rw [recent, List.mem_dedup, List.mem_filter] at hmem
      exact hk (by simpa using hmem.2)
    rw [access, load_of_notMem hm, insert, if_pos (Or.inr (Nat.lt_of_not_le hk)),
      Option.getD_none]

theorem foldl_access (ks : List κ) :
    ks.foldl (access size content capacity) [] =
      dropToFit size capacity 0 ((recent size content capacity ks).map (item content)) := by
  induction ks using List.reverseRecOn with
  | nil => rfl
  | append_singleton ks k ih =>
    rw [List.foldl_append, List.foldl_cons, List.foldl_nil, ih, access_recent]

theorem recent_split {k : κ} (hk : size (content k) ≤ capacity) (before : List κ)
    {after : List κ} (ha : k ∉ after) :
    ∃ xs, recent size content capacity (before ++ k :: after) =
      xs ++ k :: recent size content capacity after := by
  have ha' : k ∉ after.filter fun k => size (content k) ≤ capacity := fun h =>
    ha (List.mem_of_mem_filter h)
  have hd : recent size content capacity (k :: after) =
      k :: recent size content capacity after := by
    rw [recent, List.filter_cons_of_pos (by simpa using hk), List.dedup_cons_of_notMem ha', recent]
  obtain ⟨xs, hx⟩ := List.suffix_union_right
    (before.filter fun k => size (content k) ≤ capacity) (recent size content capacity (k :: after))
  refine ⟨xs, ?_⟩
  rw [recent, List.filter_append, List.dedup_append, ← recent, ← hx, hd]

/-- A key is held exactly when its size and those of the different keys accessed since its
last access fit together. -/
theorem mem_keys_foldl_access_iff {ks : List κ} {k : κ} :
    k ∈ (ks.foldl (access size content capacity) []).map Prod.fst ↔
      ∃ before after, ks = before ++ k :: after ∧ k ∉ after ∧
        size (content k) + footprint size content capacity after ≤ capacity := by
  have held_iff : ∀ {before after : List κ}, k ∉ after → size (content k) ≤ capacity →
      (k ∈ (dropToFit size capacity 0 ((recent size content capacity
          (before ++ k :: after)).map (item content))).map Prod.fst ↔
        size (content k) + footprint size content capacity after ≤ capacity) := by
    intro before after ha hk
    obtain ⟨xs, hx⟩ := recent_split size hk before ha
    have hitem : item content k ∉ (recent size content capacity after).map (item content) := by
      intro hm
      obtain ⟨k', hk', he⟩ := List.mem_map.mp hm
      obtain rfl : k' = k := congrArg Prod.fst he
      exact ha (List.mem_of_mem_filter (List.mem_dedup.mp hk'))
    rw [hx, List.map_append, List.map_cons, footprint]
    refine Iff.trans ?_ (mem_dropToFit_iff size hitem (xs.map (item content)))
    refine ⟨fun hm => ?_, fun hm => List.mem_map.mpr ⟨_, hm, rfl⟩⟩
    obtain ⟨e, he, hek⟩ := List.mem_map.mp hm
    obtain ⟨zs, hz, -⟩ := dropToFit_suffix size (Nat.zero_le capacity)
      (xs.map (item content) ++
        item content k :: (recent size content capacity after).map (item content))
    have hsub : e ∈ (xs ++ k :: recent size content capacity after).map (item content) := by
      rw [List.map_append, List.map_cons, hz]
      exact List.mem_append_right _ he
    have he' : e = item content k := hek ▸ eq_item_of_mem hsub
    rwa [he'] at he
  rw [foldl_access]
  constructor
  · intro hm
    obtain ⟨zs, hz, -⟩ := dropToFit_suffix size (Nat.zero_le capacity)
      ((recent size content capacity ks).map (item content))
    have hr : k ∈ recent size content capacity ks := by
      rw [← map_item_keys content (recent size content capacity ks), hz,
        List.map_append]
      exact List.mem_append_right _ hm
    rw [recent, List.mem_dedup, List.mem_filter] at hr
    obtain ⟨after, before, hks, ha⟩ := List.eq_append_cons_of_mem (List.mem_reverse.mpr hr.1)
    have hks' : ks = before.reverse ++ k :: after.reverse := by
      rw [← List.reverse_reverse ks, hks]
      simp
    have ha' : k ∉ after.reverse := fun h => ha (List.mem_reverse.mp h)
    subst hks'
    exact ⟨_, _, rfl, ha', (held_iff ha' (by simpa using hr.2)).mp hm⟩
  · intro he
    obtain ⟨before, after, rfl, ha, hfit⟩ := he
    exact (held_iff ha (by omega)).mpr hfit

theorem keys_mono {capacity' : ℕ} (hle : capacity ≤ capacity') {ks : List κ}
    (hks : ∀ k ∈ ks, size (content k) ≤ capacity' → size (content k) ≤ capacity) {k : κ}
    (hk : k ∈ (ks.foldl (access size content capacity) []).map Prod.fst) :
    k ∈ (ks.foldl (access size content capacity') []).map Prod.fst := by
  rw [mem_keys_foldl_access_iff] at hk ⊢
  obtain ⟨before, after, rfl, ha, hfit⟩ := hk
  refine ⟨before, after, rfl, ha, ?_⟩
  have hsame : recent size content capacity' after = recent size content capacity after := by
    rw [recent, recent]
    congr 1
    refine List.filter_congr fun k hk => ?_
    have := hks k (List.mem_append_right _ (List.mem_cons_of_mem _ hk))
    rw [decide_eq_decide]
    omega
  rw [footprint, hsame]
  rw [footprint] at hfit
  omega

end HttpReactor.LruStore
