import HttpReactor.HttpServer
import HttpReactor.ReuseDistance

/-!
# Which files the cache holds

Over an unchanging file system the requests of a run access the cache at the paths of the
regular files they GET, each once. What the cache holds after the run is a function of
these paths, of the sizes of the files and of the capacity.
-/

namespace HttpReactor
open LruStore

def cacheAccess (dir : Bytes) (fs : FileSystem) (requestStr : Bytes) : Option Bytes :=
  let request := Request.ofString requestStr
  let path := dir ++ request.resourceUrl
  if request.isValid = true ∧ isCGIRequest path = false ∧ request.method = .kGET then
    match fs.at path with
    | .regular _ _ => some path
    | _ => none
  else none

def cacheContent (fs : FileSystem) (path : Bytes) : Bytes :=
  match fs.at path with
  | .regular content readable => readInto (.regular content readable) content.length
  | _ => []

/-- Requests handled one after the other, at any times and with any outcomes of the system
calls, that leave the file system as it is. -/
inductive HandledInTurn (dir : Bytes) (fs : FileSystem) : Store → List Bytes → Store → Prop
  | none (store : Store) : HandledInTurn dir fs store [] store
  | next {store store' store'' : Store} {env : RequestEnv} {requestStr : Bytes}
      {handled : Handled} {rest : List Bytes}
      (h : respond dir ⟨fs, store⟩ env requestStr = .ok (handled, ⟨fs, store'⟩))
      (hrest : HandledInTurn dir fs store' rest store'') :
      HandledInTurn dir fs store (requestStr :: rest) store''

theorem cacheAccess_of_not {dir : Bytes} {fs : FileSystem} {requestStr : Bytes}
    (h : ¬ ((Request.ofString requestStr).isValid = true ∧
      isCGIRequest (dir ++ (Request.ofString requestStr).resourceUrl) = false ∧
      (Request.ofString requestStr).method = .kGET)) : cacheAccess dir fs requestStr = none :=
  if_neg h

namespace Store

theorem tryLoad_found_iff (s : Store) (now : Int) (url : Bytes) (dst : DynamicByteArray) :
    (s.tryLoad now url dst).1.1 = true ↔ url ∈ s.entries.map Prod.fst := by
  cases hl : load url s.entries with
  | none =>
    rw [tryLoad_miss hl now dst]
    refine iff_of_false Bool.false_ne_true fun hm => ?_
    obtain ⟨e, he, hk⟩ := List.mem_map.mp hm
    rw [load, Option.map_eq_none_iff, List.find?_eq_none] at hl
    exact hl e he (by simpa using hk)
  | some r =>
    obtain ⟨bytes, es⟩ := r
    rw [(tryLoad_hit hl now dst).1]
    exact iff_of_true rfl (List.mem_map.mpr ⟨_, (mem_of_load hl).1, rfl⟩)

theorem tryLoad_capacity (s : Store) (now : Int) (url : Bytes) (dst : DynamicByteArray) :
    (s.tryLoad now url dst).2.capacity = s.capacity := by
  have hr := Cache.tryLoad_refines s.represents now url dst
  cases hl : load url s.entries with
  | none => rw [tryLoad_miss hl now dst]
  | some r =>
    simp only [hl] at hr
    obtain ⟨c', h', ns, -, -, hcap⟩ := hr
    simp only [tryLoad, h', okOr]
    exact hcap

theorem tryInsert_capacity (s : Store) (now : Int) (url : Bytes) (source : DynamicByteArray) :
    (s.tryInsert now url source).2.capacity = s.capacity := by
  obtain ⟨ns, hwf⟩ := s.wf
  have hr := hwf.tryInsert_spec now url source
  cases hl : LruStore.insert List.length s.cache.capacity url source (s.cache.entries ns) with
  | none =>
    simp only [hl] at hr
    simp only [tryInsert, hr, okOr, capacity]
  | some es =>
    simp only [hl] at hr
    obtain ⟨c', ns', h', -, hcap, -⟩ := hr
    simp only [tryInsert, h', okOr]
    exact hcap

end Store

section Access

variable {dir : Bytes} {fs : FileSystem} {store : Store}

theorem staticBody_access {path content : Bytes} {readable : Bool} {request : Request}
    (h : fs.at path = .regular content readable) (hg : request.method = .kGET)
    (env : RequestEnv) :
    (staticBody ⟨fs, store⟩ env request path content.length).2.entries =
        access List.length (cacheContent fs) store.capacity store.entries path ∧
      (staticBody ⟨fs, store⟩ env request path content.length).2.capacity = store.capacity := by
  simp only [staticBody, if_pos hg, access]
  cases hl : load path store.entries with
  | some r =>
    obtain ⟨bytes, es⟩ := r
    obtain ⟨hhit, hes⟩ := Store.tryLoad_hit hl env.loadTime []
    rw [if_pos (by rw [hhit])]
    exact ⟨hes, Store.tryLoad_capacity store env.loadTime path []⟩
  | none =>
    rw [Store.tryLoad_miss hl env.loadTime [], if_neg (by simp)]
    refine ⟨?_, Store.tryInsert_capacity _ _ _ _⟩
    rw [Store.tryInsert_entries, cacheContent, h, List.nil_append]

theorem respond_accesses {env : RequestEnv} {requestStr : Bytes} {handled : Handled}
    {world' : World} (h : respond dir ⟨fs, store⟩ env requestStr = .ok (handled, world')) :
    world'.store.entries = (cacheAccess dir fs requestStr).toList.foldl
        (access List.length (cacheContent fs) store.capacity) store.entries ∧
      world'.store.capacity = store.capacity := by
  cases responded_of_respond h with
  | invalid hv =>
    rw [cacheAccess_of_not fun hc => by simp [hv] at hc]
    exact ⟨rfl, rfl⟩
  | cgi handled fs' hv hc hh =>
    rw [cacheAccess_of_not fun hn => by simp [hc] at hn]
    exact ⟨rfl, rfl⟩
  | static handled store' hv hc hh =>
    cases hp : fs.at (dir ++ (Request.ofString requestStr).resourceUrl) with
    | missing =>
      rw [handleStaticResourceRequest_missing hp] at hh
      cases hh
      simp [cacheAccess, hp]
    | regular content readable =>
      rw [handleStaticResourceRequest_regular hp] at hh
      cases hh
      by_cases hg : (Request.ofString requestStr).method = .kGET
      · have ha : cacheAccess dir fs requestStr =
            some (dir ++ (Request.ofString requestStr).resourceUrl) := by
          rw [cacheAccess, if_pos ⟨hv, hc, hg⟩, hp]
        rw [ha]
        exact staticBody_access hp hg env
      · rw [cacheAccess_of_not fun hn => hg hn.2.2, staticBody, if_neg hg]
        exact ⟨rfl, rfl⟩
    | directory | special | refused =>
      have hfile := fileOrNothing_of_handleStaticResourceRequest hh
      rw [hp] at hfile
      exact hfile.elim

theorem HandledInTurn.accesses {store' : Store} {requests : List Bytes}
    (h : HandledInTurn dir fs store requests store') :
    store'.entries = (requests.filterMap (cacheAccess dir fs)).foldl
        (access List.length (cacheContent fs) store.capacity) store.entries ∧
      store'.capacity = store.capacity := by
  induction h with
  | none store => exact ⟨rfl, rfl⟩
  | @next store store₁ store₂ env requestStr handled rest hr hrest ih =>
    obtain ⟨hes, hcap⟩ := respond_accesses hr
    obtain ⟨hes', hcap'⟩ := ih
    change store₁.entries = _ at hes
    change store₁.capacity = _ at hcap
    refine ⟨?_, hcap'.trans hcap⟩
    rw [hes', hcap, hes, ← List.foldl_append]
    congr 1
    cases ha : cacheAccess dir fs requestStr with
    | none => simp [ha]
    | some path => simp [ha]

theorem exists_handledInTurn (dir : Bytes) (fs : FileSystem) {requests : List Bytes}
    (hr : ∀ requestStr ∈ requests,
      isCGIRequest (dir ++ (Request.ofString requestStr).resourceUrl) = false ∧
      (fs.at (dir ++ (Request.ofString requestStr).resourceUrl)).FileOrNothing) (store : Store) :
    ∃ store', HandledInTurn dir fs store requests store' := by
  induction requests generalizing store with
  | nil => exact ⟨store, .none store⟩
  | cons requestStr rest ih =>
    obtain ⟨hc, hp⟩ := hr requestStr List.mem_cons_self
    let env : RequestEnv := ⟨0, 0, .writes [] []⟩
    have hone : ∃ handled store',
        respond dir ⟨fs, store⟩ env requestStr = .ok (handled, ⟨fs, store'⟩) := by
      by_cases hv : (Request.ofString requestStr).isValid = false
      · exact ⟨_, store, by rw [respond, if_pos hv]; rfl⟩
      · obtain ⟨r, body, finish, store', hh, -⟩ :=
          (@handleStaticResourceRequest_answers_iff ⟨fs, store⟩ _ env
            (Request.ofString requestStr) []).mpr hp
        exact ⟨_, store', by rw [respond, if_neg hv, if_neg (by simp [hc]), hh]; rfl⟩
    obtain ⟨handled, store', h⟩ := hone
    obtain ⟨store'', hrest⟩ := ih (fun r hm => hr r (List.mem_cons_of_mem _ hm)) store'
    exact ⟨store'', .next h hrest⟩

end Access

/-- After any requests the cache answers a load of a path exactly when a GET of it was
handled and, since the last one, the files of the different other paths accessed take no
more than the room beside its own file, those that cannot be held at all left out. -/
theorem cached_iff_reuse_fits (dir : Bytes) (fs : FileSystem) (now later : Int)
    (capacity : UInt64) {requests : List Bytes} {store : Store}
    (h : HandledInTurn dir fs (Store.new now capacity) requests store) (path : Bytes) :
    (store.tryLoad later path []).1.1 = true ↔
      ∃ before after, requests.filterMap (cacheAccess dir fs) = before ++ path :: after ∧
        path ∉ after ∧ (cacheContent fs path).length +
          footprint List.length (cacheContent fs) capacity.toNat after ≤ capacity.toNat := by
  rw [Store.tryLoad_found_iff, h.accesses.1, Store.new_entries]
  exact mem_keys_foldl_access_iff List.length

theorem cached_iff_reuse_fits_evicting :
    let fs : FileSystem := fun path =>
      if path = ascii "/srv" then .directory
      else if path = ascii "/srv/a" then .regular (ascii "xy") true
      else if path = ascii "/srv/b" then .regular (ascii "z") true
      else if path = ascii "/srv/c" then .regular (ascii "pq") true else .missing
    ∃ store, HandledInTurn (ascii "/srv") fs (Store.new 0 3)
        [ascii "GET /a HTTP/1.1" ++ kRequestEnd, ascii "GET /b HTTP/1.1" ++ kRequestEnd,
          ascii "GET /c HTTP/1.1" ++ kRequestEnd] store ∧
      (store.tryLoad 9 (ascii "/srv/b") []).1.1 = true := by
  intro fs
  have hstatic : ∀ requestStr ∈ [ascii "GET /a HTTP/1.1" ++ kRequestEnd,
      ascii "GET /b HTTP/1.1" ++ kRequestEnd, ascii "GET /c HTTP/1.1" ++ kRequestEnd],
      isCGIRequest (ascii "/srv" ++ (Request.ofString requestStr).resourceUrl) = false ∧
      (fs.at (ascii "/srv" ++ (Request.ofString requestStr).resourceUrl)).FileOrNothing := by
    decide +kernel
  obtain ⟨store, h⟩ := exists_handledInTurn (ascii "/srv") fs hstatic (Store.new 0 3)
  refine ⟨store, h, (cached_iff_reuse_fits (ascii "/srv") fs 0 9 3 h (ascii "/srv/b")).mpr ?_⟩
  exact ⟨[ascii "/srv/a"], [ascii "/srv/c"], by decide +kernel, by decide +kernel,
    by decide +kernel⟩

/-- A larger cache answers every load that a smaller one answers after the same requests,
unless a file they access fits the larger one only. -/
theorem larger_cache_holds_no_less (dir : Bytes) (fs : FileSystem) (now later : Int)
    {capacity capacity' : UInt64} (hle : capacity ≤ capacity') {requests : List Bytes}
    (hfits : ∀ requestStr ∈ requests, ∀ path ∈ cacheAccess dir fs requestStr,
      (cacheContent fs path).length ≤ capacity'.toNat →
        (cacheContent fs path).length ≤ capacity.toNat)
    {store store' : Store} (h : HandledInTurn dir fs (Store.new now capacity) requests store)
    (h' : HandledInTurn dir fs (Store.new now capacity') requests store') (path : Bytes)
    (hhit : (store.tryLoad later path []).1.1 = true) :
    (store'.tryLoad later path []).1.1 = true := by
  rw [Store.tryLoad_found_iff, h.accesses.1, Store.new_entries] at hhit
  rw [Store.tryLoad_found_iff, h'.accesses.1, Store.new_entries]
  refine keys_mono List.length (UInt64.le_iff_toNat_le.mp hle) (fun k hk => ?_) hhit
  obtain ⟨requestStr, hr, ha⟩ := List.mem_filterMap.mp hk
  exact hfits requestStr hr k ha

theorem larger_cache_holds_no_less_after_eviction :
    let fs : FileSystem := fun path =>
      if path = ascii "/srv" then .directory
      else if path = ascii "/srv/a" then .regular (ascii "xy") true
      else if path = ascii "/srv/b" then .regular (ascii "z") true else .missing
    ∃ store, HandledInTurn (ascii "/srv") fs (Store.new 0 3)
        [ascii "GET /a HTTP/1.1" ++ kRequestEnd, ascii "GET /b HTTP/1.1" ++ kRequestEnd] store ∧
      (store.tryLoad 9 (ascii "/srv/b") []).1.1 = true := by
  intro fs
  have hstatic : ∀ requestStr ∈ [ascii "GET /a HTTP/1.1" ++ kRequestEnd,
      ascii "GET /b HTTP/1.1" ++ kRequestEnd],
      isCGIRequest (ascii "/srv" ++ (Request.ofString requestStr).resourceUrl) = false ∧
      (fs.at (ascii "/srv" ++ (Request.ofString requestStr).resourceUrl)).FileOrNothing := by
    decide +kernel
  obtain ⟨store, h⟩ := exists_handledInTurn (ascii "/srv") fs hstatic (Store.new 0 2)
  obtain ⟨store', h'⟩ := exists_handledInTurn (ascii "/srv") fs hstatic (Store.new 0 3)
  have hhit : (store.tryLoad 9 (ascii "/srv/b") []).1.1 = true := by
    rw [Store.tryLoad_found_iff, h.accesses.1, Store.new_entries]
    decide +kernel
  exact ⟨store', h', larger_cache_holds_no_less (ascii "/srv") fs 0 9 (by decide)
    (by decide +kernel) h h' (ascii "/srv/b") hhit⟩

end HttpReactor
