import Nixie.Euf.Signatures

/-! A scan of a use list finds every congruence that a merge causes. -/

namespace Nixie.Euf

/-- Nodes that are equal, or that scheduled merges make equal. -/
def Linked (image : Nat → Nat) (pending : List (Nat × Nat × MergeReason)) : Nat → Nat → Prop :=
  Relation.EqvGen fun x y => image x = image y ∨ ∃ reason, (x, y, reason) ∈ pending

namespace Linked

variable {image coarser : Nat → Nat} {pending later : List (Nat × Nat × MergeReason)}
  {x y z : Nat}

theorem of_eq (equal : image x = image y) : Linked image pending x y := .rel _ _ (.inl equal)

theorem of_mem {reason : MergeReason} (mem : (x, y, reason) ∈ pending) :
    Linked image pending x y := .rel _ _ (.inr ⟨reason, mem⟩)

theorem symm (linked : Linked image pending x y) : Linked image pending y x :=
  Relation.EqvGen.symm _ _ linked

theorem trans (left : Linked image pending x y) (right : Linked image pending y z) :
    Linked image pending x z :=
  Relation.EqvGen.trans _ _ _ left right

theorem transfer (equalities : ∀ x y, image x = image y → coarser x = coarser y)
    (merges : ∀ x y reason, (x, y, reason) ∈ pending → Linked coarser later x y)
    (linked : Linked image pending x y) : Linked coarser later x y := by
  -- The chain of links is replaced link by link.
  induction linked with
  | rel x y step =>
    rcases step with equal | ⟨reason, mem⟩
    · exact of_eq (equalities x y equal)
    · exact merges x y reason mem
  | refl x => exact of_eq rfl
  | symm x y _ ih => exact ih.symm
  | trans x y z _ _ left right => exact left.trans right

theorem more (included : ∀ entry ∈ pending, entry ∈ later) (linked : Linked image pending x y) :
    Linked image later x y :=
  linked.transfer (fun _ _ equal => equal) fun _ _ _ mem => of_mem (included _ mem)

theorem settled (linked : Linked image [] x y) : image x = image y := by
  induction linked with
  | rel x y step =>
    rcases step with equal | ⟨_, mem⟩
    · exact equal
    · cases mem
  | refl x => rfl
  | symm x y _ ih => exact ih.symm
  | trans x y z _ _ left right => exact left.trans right

end Linked

/-- Two applications have the same signature. -/
def Congruent (properties : Nat → FunctionProperties) (nodes : List ENode) (image : Nat → Nat)
    (x y : Nat) : Prop :=
  ∃ left right, nodes[x]? = some left ∧ nodes[y]? = some right ∧ left.isApp = true ∧
    right.isApp = true ∧ signature properties image left = signature properties image right

theorem Congruent.inside {properties : Nat → FunctionProperties} {nodes : List ENode}
    {image : Nat → Nat} {x y : Nat} (congruent : Congruent properties nodes image x y) :
    x < nodes.length ∧ y < nodes.length := by
  obtain ⟨left, right, hereX, hereY, _⟩ := congruent
  exact ⟨(List.getElem?_eq_some_iff.mp hereX).1, (List.getElem?_eq_some_iff.mp hereY).1⟩

theorem signature_coarsen {properties : Nat → FunctionProperties} {image coarser : Nat → Nat}
    {left right : ENode} (coarsens : ∀ x y, image x = image y → coarser x = coarser y)
    (same : signature properties image left = signature properties image right) :
    signature properties coarser left = signature properties coarser right := by
  have funcs : left.func = right.func := congrArg Prod.fst same
  have args := congrArg Prod.snd same
  simp only [signature, funcs] at args ⊢
  rw [canonicalOrder_coarsen coarsens args]

theorem Congruent.coarsen {properties : Nat → FunctionProperties} {nodes : List ENode}
    {image coarser : Nat → Nat} {x y : Nat}
    (coarsens : ∀ x y, image x = image y → coarser x = coarser y)
    (congruent : Congruent properties nodes image x y) :
    Congruent properties nodes coarser x y := by
  obtain ⟨left, right, hereX, hereY, appX, appY, same⟩ := congruent
  exact ⟨left, right, hereX, hereY, appX, appY, signature_coarsen coarsens same⟩

/-- The signature of a node is registered for a linked one, if the node is an application. -/
def Represented (properties : Nat → FunctionProperties) (nodes : List ENode) (image : Nat → Nat)
    (sig : SigTables) (pending : List (Nat × Nat × MergeReason)) (user : Nat) : Prop :=
  ∀ node, nodes[user]? = some node → node.isApp = true →
    ∃ holder, sig.sigTable (signature properties image node) = some holder ∧
      Linked image pending holder user

/-- A scan under fixed representatives with some users still to come. -/
structure Scanned (s : EufSolver) (image : Nat → Nat) (rest : List (Nat × Nat × MergeReason))
    (remaining : List Nat) (scan : Scan) : Prop where
  uf : scan.uf.WellFormed s.nodes.length
  find : ∀ x, scan.uf.findNoCompress x = image x
  valid : scan.sig.Valid s.functionProperties s.nodes image
  represented : ∀ user, user ∈ remaining ∨
    Represented s.functionProperties s.nodes image scan.sig (scan.buf ++ rest) user
  found : ∀ entry ∈ scan.buf, ∃ x y, entry = (x, y, .congruence x y) ∧
    Congruent s.functionProperties s.nodes image x y
  restores : ∀ saved, s.sig.Restores saved → scan.sig.Restores saved

variable {s : EufSolver} {image : Nat → Nat} {rest : List (Nat × Nat × MergeReason)}
  {remaining : List Nat} {scan : Scan} {user : Nat}

theorem Scanned.skip (scanned : Scanned s image rest (user :: remaining) scan)
    (represented : Represented s.functionProperties s.nodes image scan.sig (scan.buf ++ rest)
      user) : Scanned s image rest remaining scan where
  uf := scanned.uf
  find := scanned.find
  valid := scanned.valid
  represented := by
    intro other
    rcases scanned.represented other with mem | done
    · rcases List.mem_cons.mp mem with same | later
      · exact .inr (same ▸ represented)
      · exact .inl later
    · exact .inr done
  found := scanned.found
  restores := scanned.restores

theorem Scanned.compress {uf : UnionFind} (scanned : Scanned s image rest remaining scan)
    (same : scan.uf.SameClasses uf) :
    Scanned s image rest remaining { scan with uf := uf } where
  uf := same.wellFormed _ scanned.uf
  find := fun x => (same.find x).trans (scanned.find x)
  valid := scanned.valid
  represented := scanned.represented
  found := scanned.found
  restores := scanned.restores

theorem Scanned.schedule {node : ENode} {existing : Nat}
    (scanned : Scanned s image rest (user :: remaining) scan) (here : s.nodes[user]? = some node)
    (app : node.isApp = true) (idem : ∀ x, image (image x) = image x)
    (taken : scan.sig.sigTable (signature s.functionProperties image node) = some existing) :
    Scanned s image rest (user :: remaining)
      { scan with buf := scan.buf ++ [(user, existing, .congruence user existing)] } where
  uf := scanned.uf
  find := scanned.find
  valid := scanned.valid
  represented := by
    intro other
    rcases scanned.represented other with mem | done
    · exact .inl mem
    · refine .inr fun node here app => ?_
      obtain ⟨holder, entry, linked⟩ := done node here app
      refine ⟨holder, entry, linked.more fun found mem => ?_⟩
      rcases List.mem_append.mp mem with inBuf | inRest
      · simp [inBuf]
      · simp [inRest]
  found := by
    intro entry mem
    rcases List.mem_append.mp mem with old | new
    · exact scanned.found entry old
    · refine ⟨user, existing, List.mem_singleton.mp new, ?_⟩
      -- The existing application was registered under its own signature.
      obtain ⟨holder, here', app', func, same⟩ :=
        scanned.valid.fits existing _ ((scanned.valid.registered _ _).mp taken)
      refine ⟨node, holder, here, here', app, app', ?_⟩
      simp only [signature] at func same ⊢
      rw [← func] at same ⊢
      rw [canonicalOrder_map idem] at same
      rw [same]
  restores := scanned.restores

theorem Scanned.publish {node : ENode}
    (scanned : Scanned s image rest (user :: remaining) scan) (here : s.nodes[user]? = some node)
    (app : node.isApp = true) (idem : ∀ x, image (image x) = image x)
    (absent : scan.sig.sigTable (signature s.functionProperties image node) = none) :
    Scanned s image rest remaining
      { scan with
        sig := (scan.sig.updateSigEntry user
          (signature s.functionProperties image node)).pushFingerprint
            (fingerprint (signature s.functionProperties image node)) user } where
  uf := scanned.uf
  find := scanned.find
  valid := scanned.valid.publish idem here app absent
  represented := by
    intro other
    have table : ∀ key, ((scan.sig.updateSigEntry user
        (signature s.functionProperties image node)).pushFingerprint
          (fingerprint (signature s.functionProperties image node)) user).sigTable key =
        if key = signature s.functionProperties image node then some user
        else if scan.sig.nodeSigKey user = some key then none else scan.sig.sigTable key := by
      intro key
      simp only [SigTables.pushFingerprint, SigTables.record_sigTable,
        SigTables.updateSigEntry_sigTable]
    by_cases same : other = user
    · subst same
      refine .inr fun found here' app' => ?_
      rw [here] at here'
      cases here'
      exact ⟨other, by rw [table, if_pos rfl], .of_eq rfl⟩
    · rcases scanned.represented other with mem | done
      · exact .inl ((List.mem_cons.mp mem).resolve_left same)
      · refine .inr fun found here' app' => ?_
        obtain ⟨holder, entry, linked⟩ := done found here' app'
        refine ⟨holder, ?_, linked⟩
        -- The entry is neither the new one nor the one that is removed.
        rw [table, if_neg, if_neg]
        · exact entry
        · intro old
          exact scanned.valid.old_key idem here absent old rfl
        · intro new
          rw [new, absent] at entry
          cases entry
  found := scanned.found
  restores := by
    intro saved kept
    refine SigTables.Restores.pushFingerprint ?_ _ _
    refine (scanned.restores saved kept).updateSigEntry ?_ absent
    intro key old
    exact (scanned.valid.registered key user).mpr old

theorem Scanned.step (scanned : Scanned s image rest (user :: remaining) scan)
    (idem : ∀ x, image (image x) = image x) :
    Scanned s image rest remaining (scanUser s.functionProperties s.nodes user scan) := by
  unfold scanUser
  split
  · rename_i missing
    refine scanned.skip fun node here _ => ?_
    rw [missing] at here
    cases here
  · rename_i node here
    split
    · rename_i leaf
      refine scanned.skip fun other here' app => ?_
      rw [here] at here'
      cases here'
      simp [ENode.isApp, leaf] at app
    · rename_i applied
      have app : node.isApp = true := by simpa [ENode.isApp] using applied
      obtain ⟨canonical, same⟩ :=
        canonicalizeArgs_spec (s.functionProperties node.func) node.args scanned.uf
      have images : node.args.map scan.uf.findNoCompress = node.args.map image :=
        List.map_congr_left fun x _ => scanned.find x
      have key : (node.func, (canonicalizeArgs (s.functionProperties node.func) scan.uf
          node.args).1) = signature s.functionProperties image node := by
        rw [canonical, images]
        rfl
      simp only [key, scanned.valid.filtered]
      have scanned' := scanned.compress same
      split
      · rename_i existing taken
        have entry : scan.sig.sigTable (signature s.functionProperties image node) =
            some existing := taken
        -- Whatever is registered already represents the user, now or after the merge.
        by_cases self : existing = user
        · rw [if_pos self]
          refine scanned'.skip fun other here' app' => ?_
          rw [here] at here'
          cases here'
          exact ⟨existing, entry, .of_eq (self ▸ rfl)⟩
        · rw [if_neg self]
          have first := UnionFind.find_sameClasses scanned'.uf user
          have second := UnionFind.find_sameClasses (first.wellFormed _ scanned'.uf) existing
          have compressed := scanned'.compress (first.trans second)
          have users : ((canonicalizeArgs (s.functionProperties node.func) scan.uf
              node.args).2.find user).1 = image user := scanned'.find user
          have existings : (((canonicalizeArgs (s.functionProperties node.func) scan.uf
              node.args).2.find user).2.find existing).1 = image existing :=
            (first.find existing).trans (scanned'.find existing)
          rw [users, existings]
          by_cases equal : image user = image existing
          · simp only [if_pos equal]
            refine compressed.skip fun other here' app' => ?_
            rw [here] at here'
            cases here'
            exact ⟨existing, entry, .of_eq equal.symm⟩
          · simp only [if_neg equal]
            refine (compressed.schedule here app idem entry).skip fun other here' app' => ?_
            rw [here] at here'
            cases here'
            have mem : (user, existing, MergeReason.congruence user existing) ∈
                (scan.buf ++ [(user, existing, .congruence user existing)]) ++ rest := by simp
            exact ⟨existing, entry, Linked.symm (Linked.of_mem mem)⟩
      · rename_i absent
        exact scanned'.publish here app idem absent

theorem Scanned.run (idem : ∀ x, image (image x) = image x) :
    ∀ (users : List Nat) {scan : Scan}, Scanned s image rest users scan → Scanned s image rest []
        (users.foldl (fun scan user => scanUser s.functionProperties s.nodes user scan) scan) := by
  intro users
  induction users with
  | nil => exact fun scanned => scanned
  | cons user others ih => exact fun scanned => ih (scanned.step idem)

theorem scanUser_length (properties : Nat → FunctionProperties) (nodes : List ENode) (user : Nat)
    (scan : Scan) : (scanUser properties nodes user scan).buf.length ≤ scan.buf.length + 1 := by
  unfold scanUser
  split
  · omega
  · split
    · omega
    · dsimp only
      split
      · split
        · dsimp only
          omega
        · dsimp only
          split
          · omega
          · simp
      · dsimp only
        omega

theorem scanUsers_length (properties : Nat → FunctionProperties) (nodes : List ENode)
    (users : List Nat) : ∀ (scan : Scan),
      (users.foldl (fun scan user => scanUser properties nodes user scan) scan).buf.length ≤
        scan.buf.length + users.length := by
  induction users with
  | nil => exact fun scan => Nat.le_refl _
  | cons user others ih =>
    intro scan
    have one := scanUser_length properties nodes user scan
    have rest := ih (scanUser properties nodes user scan)
    rw [List.foldl_cons, List.length_cons]
    omega

end Nixie.Euf
