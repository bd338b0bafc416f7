/-
  MiddleboxSession/ClientRaces.lean
  =================================
  **Hooks beside a "RESET" on the client.**

  "RESET" deletes each record of the session in one critical section and adds it
  again in the next.  A hook that comes in between does not find it, and lets the
  packet pass as it is.  A hook that came before, and has not read the record
  yet, reads freed memory.  Both are exact: without such a meeting every lookup
  of the session finds a record, and every record that is read is in the table.
-/
import MiddleboxSession.ClientThreads

namespace MiddleboxSession

open CBuffer UTHash Runs

/-! ### Lookups of the session -/

/-- The keys of the session: (dst, dport) of its server, and (src, sport) of the
    old middlebox. -/
def Direction.sessionKey : Direction → RecordKey
  | .outgoing => ⟨0, serverAddr, 0, 5001⟩
  | .incoming => ⟨oldBox, 0, 5001, 0⟩

def Direction.Translates (cs : Csum) : Direction → SkBuff → SkBuff → Prop
  | .outgoing, skb, skb' => ∃ box ∈ [oldBox, newBox], skb' = skb.rewriteDaddr cs box
  | .incoming, skb, skb' => skb' = skb.setSaddr serverAddr

/-- A packet of the session that has passed its hook has been translated.  This
    says nothing of a hook that has read freed memory (`.undefined`); `Unheld` is
    the condition under which there is none. -/
def HookRun.Translated (cs : Csum) (h : HookRun) : Prop :=
  h.key = h.direction.sessionKey → ∀ skb', h.pc = .passed skb' →
    h.direction.Translates cs h.skb skb'

/-- The record that a hook has found and not read yet. -/
def HookPc.pointer : HookPc → Option Nat
  | .holds p => some p
  | .missed | .passed _ | .undefined => none

namespace ClientState

/-- A lookup of the session finds a record. -/
def Finds (s : ClientState) : ClientAct → Prop
  | .lookup direction skb => direction.key skb = direction.sessionKey →
    (hashFind s.records (direction.key skb)).isSome = true
  | .message _ | .netlink | .use _ => True

def Translated (cs : Csum) (s : ClientState) : Prop := ∀ h ∈ s.hooks, h.Translated cs

/-- No packet of the session is looked up while its record is out of the table. -/
def InPlace (s : ClientState) : ClientAct → Prop
  | .lookup direction skb => direction.key skb = direction.sessionKey →
    s.netlink.missing ≠ some direction.sessionKey
  | .message _ | .netlink | .use _ => True

instance (s : ClientState) : ∀ act, Decidable (Finds s act)
  | .lookup direction skb => inferInstanceAs (Decidable (direction.key skb =
      direction.sessionKey → (hashFind s.records (direction.key skb)).isSome = true))
  | .message _ | .netlink | .use _ => inferInstanceAs (Decidable True)

instance (s : ClientState) : ∀ act, Decidable (InPlace s act)
  | .lookup direction skb => inferInstanceAs (Decidable (direction.key skb =
      direction.sessionKey → s.netlink.missing ≠ some direction.sessionKey))
  | .message _ | .netlink | .use _ => inferInstanceAs (Decidable True)

theorem mem_contents {pc : NetlinkPc} {b : Bool} {n : Nat} {r : Record} :
    r ∈ pc.contents b n ↔ pc ≠ .addOut ∧ r = Client.out (path b) ∨
      pc ≠ .addBack ∧ r = Client.back oldBox ∨ n ≠ 0 ∧ r = Client.back newBox := by
  cases pc <;> simp [NetlinkPc.contents, Multiset.mem_replicate]

/-- The record of a direction is missing exactly between its two sections. -/
theorem absent_iff {pc : NetlinkPc} {b : Bool} {n : Nat} (direction : Direction) :
    (∀ r ∈ pc.contents b n, r.key ≠ direction.sessionKey) ↔
      pc.missing = some direction.sessionKey := by
  constructor
  · intro habsent
    cases direction with
    | outgoing =>
      have hpc : pc = .addOut := by
        by_contra hpc
        exact habsent _ (mem_contents.mpr (Or.inl ⟨hpc, rfl⟩)) rfl
      rw [hpc]
      rfl
    | incoming =>
      have hpc : pc = .addBack := by
        by_contra hpc
        exact habsent _ (mem_contents.mpr (Or.inr (Or.inl ⟨hpc, rfl⟩))) rfl
      rw [hpc]
      rfl
  · intro hmissing r hr
    cases direction with
    | outgoing =>
      have hpc : pc = .addOut := by
        cases pc <;> first | rfl | exact absurd hmissing (by decide)
      rcases mem_contents.mp hr with ⟨h, -⟩ | ⟨-, rfl⟩ | ⟨-, rfl⟩
      · exact absurd hpc h
      · decide
      · decide
    | incoming =>
      have hpc : pc = .addBack := by
        cases pc <;> first | rfl | exact absurd hmissing (by decide)
      rcases mem_contents.mp hr with ⟨-, rfl⟩ | ⟨h, -⟩ | ⟨-, rfl⟩
      · exact (by decide : (⟨0, serverAddr, 0, 5001⟩ : RecordKey) ≠ ⟨oldBox, 0, 5001, 0⟩)
      · exact absurd hpc h
      · decide

theorem MemOk.find_iff {s : ClientState} (h : MemOk s) (direction : Direction) :
    (hashFind s.records direction.sessionKey).isSome = true ↔
      s.netlink.missing ≠ some direction.sessionKey := by
  have hR : (∀ c ∈ bag s.records, c.key ≠ direction.sessionKey) ↔
      ∀ r ∈ (bag s.records).map Cell.record, r.key ≠ direction.sessionKey := by
    simp [Cell.key]
  rw [← not_iff_not, Option.not_isSome_iff_eq_none, hashFind_eq_none, hR, h.contents,
    absent_iff, not_not]

theorem MemOk.finds_iff {s : ClientState} (h : MemOk s) (act : ClientAct) :
    Finds s act ↔ InPlace s act := by
  cases act with
  | lookup direction skb =>
    refine forall_congr' fun hkey => ?_
    rw [hkey]
    exact h.find_iff direction
  | message | netlink | use => exact Iff.rfl

/-- What hooks have come to as long as the lookups of the session find records. -/
structure SessionOk (cs : Csum) (s : ClientState) : Prop where
  mem : MemOk s
  found : ∀ h ∈ s.hooks, h.key = h.direction.sessionKey → h.pc ≠ .missed
  translated : Translated cs s

theorem SessionOk.loaded (cs : Csum) : SessionOk cs loaded :=
  ⟨MemOk.loaded, fun h hh => (by cases hh), fun h hh => (by cases hh)⟩

/-- The record that a key of the session leads to translates its packets. -/
theorem MemOk.translates {cs : Csum} {s : ClientState} (h : MemOk s) {direction : Direction}
    {c : Cell} (hc : c ∈ bag s.records) (hkey : c.key = direction.sessionKey) (skb : SkBuff) :
    direction.Translates cs skb (direction.rewrite cs skb c.record) := by
  have hmem : c.record ∈ (bag s.records).map Cell.record := Multiset.mem_map_of_mem _ hc
  rw [h.contents, mem_contents] at hmem
  rw [Cell.key] at hkey
  have hpath : ∀ b, path b ∈ [oldBox, newBox] := by decide
  cases direction with
  | outgoing =>
    rcases hmem with ⟨-, hr⟩ | ⟨-, hr⟩ | ⟨-, hr⟩
    · exact ⟨_, hpath s.activated, by rw [hr]; rfl⟩
    · rw [hr] at hkey
      exact absurd hkey (by decide)
    · rw [hr] at hkey
      exact absurd hkey (by decide)
  | incoming =>
    rcases hmem with ⟨-, hr⟩ | ⟨-, hr⟩ | ⟨-, hr⟩
    · rw [hr] at hkey
      exact absurd (congrArg RecordKey.dport hkey) (by decide : (5001 : BitVec 16) ≠ 0)
    · rw [hr]
      rfl
    · rw [hr] at hkey
      exact absurd hkey (by decide)

theorem finishHook_sound {cs : Csum} {s : ClientState} {h h' : HookRun}
    (hfinish : s.finishHook cs h = some h') : h'.direction = h.direction ∧ h'.skb = h.skb ∧
      ((∃ p r, h.pc = .holds p ∧ deref s.records p = some r ∧
          h'.pc = .passed (h.direction.rewrite cs h.skb r)) ∨
        (∃ p, h.pc = .holds p ∧ deref s.records p = none ∧ h'.pc = .undefined) ∨
        h.pc = .missed ∧ h'.pc = .passed h.skb) := by
  unfold finishHook at hfinish
  split at hfinish
  · rename_i p hpc
    split at hfinish
    · rename_i r hr
      cases hfinish
      exact ⟨rfl, rfl, Or.inl ⟨p, r, hpc, hr, rfl⟩⟩
    · rename_i hr
      cases hfinish
      exact ⟨rfl, rfl, Or.inr (Or.inl ⟨p, hpc, hr, rfl⟩)⟩
  · rename_i hpc
    cases hfinish
    exact ⟨rfl, rfl, Or.inr (Or.inr ⟨hpc, rfl⟩)⟩
  · cases hfinish
  · cases hfinish

theorem SessionOk.step {cs : Csum} {s s' : ClientState} {act : ClientAct} (h : SessionOk cs s)
    (hG : InPlace s act) (hstep : s.step cs act = some s') : SessionOk cs s' := by
  have hmem := h.mem.step hstep
  cases step_sound hstep with
  | message msg hidle =>
    have hhooks : (s.message msg).hooks = s.hooks := (message_frame s msg).2.2
    exact ⟨hmem, hhooks ▸ h.found, fun hook hh => h.translated hook (hhooks ▸ hh)⟩
  | netlink s' hnetlink =>
    have hhooks := (netlinkStep_sound h.mem.contents hnetlink).2.1
    exact ⟨hmem, hhooks ▸ h.found, fun hook hh => h.translated hook (hhooks ▸ hh)⟩
  | lookup direction skb htcp =>
    refine ⟨hmem, fun hook hh hkey => ?_, fun hook hh hkey skb' hpc => ?_⟩
    · rcases List.mem_append.mp hh with hh | hh
      · exact h.found hook hh hkey
      · obtain rfl := List.mem_singleton.mp hh
        have hfind := (h.mem.finds_iff _).mpr hG hkey
        obtain ⟨c, hc⟩ := Option.isSome_iff_exists.mp hfind
        simp [ClientState.lookup, hc]
    · rcases List.mem_append.mp hh with hh | hh
      · exact h.translated hook hh hkey skb' hpc
      · obtain rfl := List.mem_singleton.mp hh
        unfold ClientState.lookup at hpc
        dsimp only at hpc
        split at hpc <;> cases hpc
  | use i hook hook' hi hfinish =>
    obtain ⟨hdir, hskb, hcases⟩ := finishHook_sound hfinish
    have hhook : hook ∈ s.hooks := List.mem_of_getElem? hi
    have hkey' : hook'.key = hook.key := by rw [HookRun.key, hdir, hskb]; rfl
    refine ⟨hmem, fun g hg hkey => ?_, fun g hg hkey skb' hpc => ?_⟩
    · rcases List.mem_or_eq_of_mem_set hg with hg | rfl
      · exact h.found g hg hkey
      · rcases hcases with ⟨p, r, -, -, hpc⟩ | ⟨p, -, -, hpc⟩ | ⟨-, hpc⟩ <;> simp [hpc]
    · rcases List.mem_or_eq_of_mem_set hg with hg | rfl
      · exact h.translated g hg hkey skb' hpc
      · rw [hkey', hdir] at hkey
        rcases hcases with ⟨p, r, hp, hr, hpc'⟩ | ⟨p, -, -, hpc'⟩ | ⟨hmissed, -⟩
        · rw [hpc', HookPc.passed.injEq] at hpc
          obtain ⟨c, hc, haddr, rfl⟩ := deref_eq_some hr
          have hckey := h.mem.heldKey hook hhook p hp c hc haddr
          rw [hdir, hskb, ← hpc]
          exact h.mem.translates hc (hckey.trans hkey) hook.skb
        · rw [hpc'] at hpc
          cases hpc
        · exact absurd hmissed (h.found hook hhook hkey)

/-- **When a "RESET" is atomic for packets**: in a run every lookup of the session
    finds a record, and no packet of the session passes a hook untranslated, if
    and only if no packet of the session is looked up between the deletion of its
    record and the section that adds it again. -/
theorem reset_atomic_iff (cs : Csum) (acts : List ClientAct) :
    Along (step cs) Finds loaded acts ∧ Throughout (step cs) (Translated cs) loaded acts ↔
      Along (step cs) InPlace loaded acts := by
  have hguards : Along (step cs) Finds loaded acts ↔ Along (step cs) InPlace loaded acts :=
    along_congr fun s act hreach => (memOk hreach).finds_iff act
  constructor
  · intro h
    exact hguards.mp h.1
  · intro hG
    refine ⟨hguards.mpr hG, ?_⟩
    have hok : Throughout (step cs) (SessionOk cs) loaded acts :=
      hG.throughout (SessionOk.loaded cs) fun _ _ _ hs hact hstep => hs.step hact hstep
    exact hok.mono fun _ hs => hs.translated

def sessionPacket : SkBuff := .bare clientAddr serverAddr 40000 5001

/-- A packet of the session is sent right after "RESET" has deleted the record. -/
def windowRun : List ClientAct :=
  [.message "RESET", .netlink, .lookup .outgoing sessionPacket, .use 0]

/-- It passes its hook as it is. -/
theorem reset_window_open :
    ¬ Along (step Csum.standard) Finds loaded windowRun ∧
      (run (step Csum.standard) loaded windowRun).map ClientState.hooks =
        some [⟨.outgoing, sessionPacket, .passed sessionPacket⟩] := by
  constructor
  · decide +kernel
  · decide +kernel

/-! ### Records that are read -/

def Live (s : ClientState) (p : Nat) : Prop := ∃ c ∈ bag s.records, c.addr = p

/-- What a hook is going to read is in the table, and what it has read was. -/
def ReadsLive (s : ClientState) : Prop :=
  ∀ h ∈ s.hooks, (∀ p ∈ h.pc.pointer, s.Live p) ∧ h.pc ≠ .undefined

/-- No record is deleted that a hook has found and not read yet. -/
def Unheld (s : ClientState) : ClientAct → Prop
  | .netlink => ∀ k ∈ s.netlink.deletes, ∀ h ∈ s.hooks, h.key = k → h.pc.pointer = none
  | .message _ | .lookup .. | .use _ => True

instance (s : ClientState) : ∀ act, Decidable (Unheld s act)
  | .netlink => inferInstanceAs (Decidable (∀ k ∈ s.netlink.deletes, ∀ h ∈ s.hooks,
      h.key = k → h.pc.pointer = none))
  | .message _ | .lookup .. | .use _ => inferInstanceAs (Decidable True)

theorem eq_holds {pc : HookPc} {p : Nat} (h : p ∈ pc.pointer) : pc = .holds p := by
  cases pc with
  | holds q =>
    cases h
    rfl
  | _ => cases h

/-- A section frees at most the record that it deletes. -/
theorem TableMove.live {s s' : ClientState} (hmove : TableMove s s') {p : Nat} (hp : s.Live p)
    (hkeep : ∀ k ∈ s.netlink.deletes, ∀ c ∈ bag s.records, c.addr = p → c.key ≠ k) :
    s'.Live p := by
  obtain ⟨c₀, hc₀, haddr₀⟩ := hp
  cases hmove with
  | insert item hpc hbag => exact ⟨c₀, hbag ▸ Multiset.mem_cons_of_mem hc₀, haddr₀⟩
  | assign c c' rest hpc hold hnew haddr =>
    rw [hold, Multiset.mem_cons] at hc₀
    rcases hc₀ with rfl | hc₀
    · exact ⟨c', hnew ▸ Multiset.mem_cons_self c' rest, haddr.trans haddr₀⟩
    · exact ⟨c₀, hnew ▸ Multiset.mem_cons_of_mem hc₀, haddr₀⟩
  | remove c hpc hbag =>
    have hne : c₀.key ≠ c.key := hkeep c.key hpc c₀ hc₀ haddr₀
    rw [hbag, Multiset.mem_cons] at hc₀
    rcases hc₀ with rfl | hc₀
    · exact absurd rfl hne
    · exact ⟨c₀, hc₀, haddr₀⟩

/-- What a deletion frees is gone for whoever has found it. -/
theorem MemOk.not_live {s s' : ClientState} (h : MemOk s) (hmove : TableMove s s')
    {k : RecordKey} (hk : k ∈ s.netlink.deletes) {c : Cell} (hc : c ∈ bag s.records)
    (hkey : c.key = k) : ¬ s'.Live c.addr := by
  cases hmove with
  | insert item hpc | assign c c' rest hpc =>
    rw [hpc] at hk
    cases hk
  | remove c' hpc hbag honly =>
    have hk' : c'.key = k := Option.some.inj (hpc.symm.trans (Option.mem_def.mp hk))
    have haddrs := h.addrs
    rw [hbag, Multiset.map_cons, Multiset.nodup_cons] at haddrs
    rw [hbag, Multiset.mem_cons] at hc
    rintro ⟨d, hd, haddr⟩
    rcases hc with rfl | hc
    · exact haddrs.1 (Multiset.mem_map.mpr ⟨d, hd, haddr⟩)
    · exact honly c hc (hkey.trans hk'.symm)

theorem ReadsLive.step {cs : Csum} {s s' : ClientState} {act : ClientAct} (hmem : MemOk s)
    (h : ReadsLive s) (hG : Unheld s act) (hstep : s.step cs act = some s') : ReadsLive s' := by
  cases step_sound hstep with
  | message msg hidle =>
    obtain ⟨hrecords, -, hhooks⟩ := message_frame s msg
    intro hook hh
    obtain ⟨hlive, hpc⟩ := h hook (hhooks ▸ hh)
    refine ⟨fun p hp => ?_, hpc⟩
    rw [Live, hrecords]
    exact hlive p hp
  | netlink s' hnetlink =>
    obtain ⟨-, hhooks, hmove⟩ := netlinkStep_sound hmem.contents hnetlink
    intro hook hh
    rw [hhooks] at hh
    obtain ⟨hlive, hpc⟩ := h hook hh
    refine ⟨fun p hp => hmove.live (hlive p hp) fun k hk c hc haddr hckey => ?_, hpc⟩
    have hkey := hmem.heldKey hook hh p (eq_holds hp) c hc haddr
    rw [hG k hk hook hh (hkey.symm.trans hckey)] at hp
    cases hp
  | lookup direction skb htcp =>
    intro hook hh
    rcases List.mem_append.mp hh with hh | hh
    · exact h hook hh
    · obtain rfl := List.mem_singleton.mp hh
      unfold ClientState.lookup
      dsimp only
      split
      · rename_i c hfind
        refine ⟨fun p hp => ?_, by simp⟩
        cases hp
        exact ⟨c, (hashFind_eq_some hfind).1, rfl⟩
      · exact ⟨fun p hp => (by cases hp), by simp⟩
  | use i hook hook' hi hfinish =>
    obtain ⟨-, -, hcases⟩ := finishHook_sound hfinish
    have hhook := h hook (List.mem_of_getElem? hi)
    intro g hg
    rcases List.mem_or_eq_of_mem_set hg with hg | rfl
    · exact h g hg
    · rcases hcases with ⟨p, r, -, -, hpc⟩ | ⟨p, hp, hnone, -⟩ | ⟨-, hpc⟩
      · rw [hpc]
        exact ⟨fun q hq => (by cases hq), by simp⟩
      · -- the record is there, so the pointer reads it
        obtain ⟨c, hc, haddr⟩ := hhook.1 p (by rw [hp]; rfl)
        exact absurd haddr (deref_eq_none.mp hnone c hc)
      · rw [hpc]
        exact ⟨fun q hq => (by cases hq), by simp⟩

theorem ReadsLive.broken {cs : Csum} {s s' : ClientState} {act : ClientAct} (hmem : MemOk s)
    (h : ReadsLive s) (hG : ¬ Unheld s act) (hstep : s.step cs act = some s') :
    ¬ ReadsLive s' := by
  cases step_sound hstep with
  | netlink s' hnetlink =>
    obtain ⟨-, hhooks, hmove⟩ := netlinkStep_sound hmem.contents hnetlink
    simp only [Unheld, not_forall] at hG
    obtain ⟨k, hk, hook, hh, hkey, hheld⟩ := hG
    obtain ⟨p, hp⟩ := Option.ne_none_iff_exists'.mp hheld
    obtain ⟨c, hc, rfl⟩ := (h hook hh).1 p hp
    have hckey := hmem.heldKey hook hh c.addr (eq_holds hp) c hc rfl
    intro hlive
    exact hmem.not_live hmove hk hc (hckey.trans hkey) ((hlive hook (hhooks ▸ hh)).1 c.addr hp)
  | message | lookup | use => exact absurd trivial hG

/-- **When hooks read only records of the table**: in every state of a run the
    records that hooks have found and not read yet are in the table, and none was
    read that was not, if and only if no "RESET" of the run deletes a record
    between a hook's lookup of it and the hook's reading it. -/
theorem reads_live_iff {cs : Csum} {acts : List ClientAct} {s : ClientState}
    (hrun : run (step cs) loaded acts = some s) :
    Throughout (step cs) ReadsLive loaded acts ↔ Along (step cs) Unheld loaded acts := by
  have h0 : ReadsLive loaded := fun hook hh => (by cases hh)
  refine throughout_iff_along (I := fun s => MemOk s ∧ ReadsLive s) hrun ⟨MemOk.loaded, h0⟩
    (fun s hs => hs.2) ?_ ?_
  · intro s act s' hs hG hstep
    exact ⟨hs.1.step hstep, hs.2.step hs.1 hG hstep⟩
  · intro s act s' hs hG hstep
    exact hs.2.broken hs.1 hG hstep

/-- A "RESET" while no hook is running. -/
theorem reads_live_quiet :
    Throughout (step Csum.standard) ReadsLive loaded
      [.lookup .outgoing sessionPacket, .use 0, .message "RESET", .netlink, .netlink] := by
  have hrun : (run (step Csum.standard) loaded [.lookup .outgoing sessionPacket, .use 0,
      .message "RESET", .netlink, .netlink]).isSome = true := by decide +kernel
  obtain ⟨s, hs⟩ := Option.isSome_iff_exists.mp hrun
  exact (reads_live_iff hs).mpr (by decide +kernel)

/-- A hook has found the record, "RESET" frees it, and then the hook reads it. -/
theorem read_after_free :
    ∃ s, run (step Csum.standard) loaded
        [.lookup .outgoing sessionPacket, .message "RESET", .netlink, .use 0] = some s ∧
      s.hooks = [⟨.outgoing, sessionPacket, .undefined⟩] ∧ ¬ s.ReadsLive := by
  have hrun : ((run (step Csum.standard) loaded [.lookup .outgoing sessionPacket,
      .message "RESET", .netlink, .use 0]).any fun s =>
        s.hooks = [⟨.outgoing, sessionPacket, .undefined⟩]) = true := by decide +kernel
  obtain ⟨s, hs, hhooks⟩ := (Option.any_eq_true _ _).mp hrun
  have hhooks := of_decide_eq_true hhooks
  refine ⟨s, hs, hhooks, fun hlive => ?_⟩
  exact (hlive _ (hhooks ▸ List.mem_singleton_self _)).2 rfl

end ClientState

end MiddleboxSession
