/-
# Files side by side in listings

A listing goes down through all directories, so it has a file only together with
everything else that lies in the directory of the file. It does not matter that the
other file was found by listing another directory: where a file lies is decided by
its path.
-/

import Vendoring.Proofs.FileTree.Locations
import Vendoring.Proofs.Path.Companions

namespace Vendoring.FileTree

variable {t : FileTree} {p q dir dir' : Path}

/-- A listing that has a file has all files that are listed anywhere and lie in the same
directory. -/
theorem mem_filesBelow_of_neighbours (hdir : t.isDirectory dir = true)
    (hdir' : t.isDirectory dir' = true) (hplain : dir.IsPlain) (hplain' : dir'.IsPlain)
    (hp : p ∈ t.filesBelow dir) (hq : q ∈ t.filesBelow dir') (h : p.Neighbours q) :
    q ∈ t.filesBelow dir := by
  obtain ⟨loc, hloc, -⟩ := exists_locate_of_isDirectory hdir
  obtain ⟨loc', hloc', -⟩ := exists_locate_of_isDirectory hdir'
  obtain ⟨front, name, -, hnames, rfl, hcs, hrefusal, -⟩ := exists_name_of_mem_filesBelow hdir hp
  obtain ⟨front', name', contents, hnames', rfl, hcs', -, hentry⟩ :=
    exists_name_of_mem_filesBelow hdir' hq
  have hsiblings : ∀ s ∈ front ++ [name'], IsName s := by
    intro s hs
    rcases List.mem_append.1 hs with hs | hs
    · exact hnames s (List.mem_append_left _ hs)
    · exact hnames' s (List.mem_append_right _ hs)
  have hne := text_ne_of_locate hloc
  -- the other file has the path that it would be listed under here
  have hpath : pathTo dir' (front' ++ [name']) = pathTo dir (front ++ [name']) := by
    refine Path.SameAs.eq_of_isPlain ?_ ((pathTo_spec (text_ne_of_locate hloc') hnames').2.2 hplain')
      ((pathTo_spec hne hsiblings).2.2 hplain)
    show Path.components _ = Path.components _
    rw [hcs', (pathTo_spec hne hsiblings).1, ← (Path.neighbours_iff hcs hcs').1 h]
    simp
  rw [hpath] at hentry ⊢
  rw [locationOf_append_names _ (pathTo_spec hne hsiblings).1, locationOf_of_locate hloc] at hentry
  refine (mem_filesBelow_iff hloc).2 ⟨front ++ [name'], contents, hentry, ?_, rfl⟩
  rwa [List.dropLast_concat]

end Vendoring.FileTree
