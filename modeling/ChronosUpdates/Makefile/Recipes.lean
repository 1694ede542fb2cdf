import ChronosUpdates.FileTree
import ChronosUpdates.Shell.Text

namespace ChronosUpdates.Makefile
open Shell FileTree

variable {γ : Type*}

structure Tools (γ : Type*) where
  text : Text → γ
  symlink : Path → γ
  tar : List (Path × γ) → γ
  md5sum : List (Path × γ) → γ
  /-- `zip` adds files to an archive, which it creates if there is none. -/
  zip : Option γ → List (Path × γ) → γ
  unzip : γ → List (Path × γ)

def path (names : List String) : Path := names.map String.toList

inductive Line
  | mkdir (dir : Path)
  | rmRecursive (p : Path)
  | rm (file : Path)
  | cp (files : List Path) (dir : Path)
  | cpAll (src dir : Path)
  | mv (file dir : Path)
  | echoVersion (file : Path)
  | link (target file : Path)
  | tar (out dir : Path)
  | md5sum (dir out : Path)
  | zip (out dir : Path)
  | zipJunkPaths (out : Path) (files : List Path)
deriving DecidableEq, Repr

def into (dir file : Path) : Path := dir ++ file.getLast?.toList

def readAll (files : List Path) (t : Files γ) : Option (List (Path × γ)) :=
  files.mapM fun f => (t.lookup f).map fun c => (f, c)

/-- What `md5sum` reads when its lines go to the file `out`: where `out` is among the files, it
holds the lines of those in front of it. -/
def redirected (k : Tools γ) (out : Path) (fs : List (Path × γ)) : List (Path × γ) :=
  fs.map fun f => if f.1 = out then (out, k.md5sum (fs.takeWhile (·.1 ≠ out))) else f

/-- The effect of a line that does its work; `none` when it lacks an input. -/
def exec (k : Tools γ) (version : Text) (t : Files γ) : Line → Option (Files γ)
  | .mkdir _ => some t
  | .rmRecursive p => some (remove (below p) t)
  | .rm file =>
    if list (fun p => below file p && p != file) t = [] then some (t.erase file) else none
  | .cp files dir =>
    (readAll files t).map fun found => writeAll (found.map fun f => (into dir f.1, f.2)) t
  | .cpAll src dir =>
    (expandAll src t).map fun found => writeAll (found.map fun f => (into dir f.1, f.2)) t
  | .mv file dir => (t.lookup file).map fun c => (t.erase file).insert (into dir file) c
  | .echoVersion file => some (t.insert file (k.text version))
  | .link target file =>
    some (if (t.lookup file).isSome then t else t.insert file (k.symlink target))
  | .tar out dir => some (t.insert out (k.tar (listing (below dir) t)))
  | .md5sum dir out =>
    (expandAll dir t).map fun found => t.insert out (k.md5sum (redirected k out found))
  | .zip out dir =>
    let found := list (fun p => below dir p && p != out) t
    -- an archive inside `dir` needs the directory that it is to be in
    if found = [] ∨ below dir out = true ∧ list (below out.dropLast) t = [] then none
    else some (t.insert out (k.zip (t.lookup out) found))
  | .zipJunkPaths out files =>
    (readAll files t).map fun found =>
      t.insert out (k.zip (t.lookup out) (found.map fun f => (into [] f.1, f.2)))

def touches : Line → Path → Bool
  | .mkdir _, _ => false
  | .rmRecursive p, q => below p q
  | .rm file, q => file == q
  | .cp files dir, q => files.any fun f => into dir f == q
  | .cpAll _ dir, q => child dir q
  | .mv file dir, q => file == q || into dir file == q
  | .echoVersion file, q => file == q
  | .link _ file, q => file == q
  | .tar out _, q => out == q
  | .md5sum _ out, q => out == q
  | .zip out _, q => out == q
  | .zipJunkPaths out _, q => out == q

/-- The effect of a line that fails. A rename happens as a whole or not at all. -/
def damage (junk : List (Path × Option γ)) (t : Files γ) : Line → Files γ
  | .mv _ _ => t
  | .rm file => spoil (touches (.rm file)) (junk.map fun j => (j.1, none)) t
  | .rmRecursive p => spoil (touches (.rmRecursive p)) (junk.map fun j => (j.1, none)) t
  | l => spoil (touches l) junk t

/-- The lines of a recipe up to the first that fails, and whether none does; `fail` is the
number of a line that fails for reasons of its own. -/
def runRecipe (k : Tools γ) (version : Text) (junk : List (Path × Option γ)) :
    Option ℕ → List Line → Files γ → Files γ × Bool
  | _, [], t => (t, true)
  | fail, l :: ls, t =>
    if fail = some 0 then (damage junk t l, false)
    else match exec k version t l with
      | some t' => runRecipe k version junk (fail.map (· - 1)) ls t'
      | none => (damage junk t l, false)

def camUpdateDir : Path := path ["camUpdate"]

def rootfsDir : Path := path ["rootfs"]

def debianImage : Path := path ["debian.img.gz"]

def filesystemRevision : Path := path ["rootfs", "opt", "camera", "filesystemRevision"]

def rulesD : Path := path ["rootfs", "lib", "udev", "rules.d"]

def debianZip : Path := path ["camUpdate-debian.zip"]

def hexFile : Path := path ["Chronos1_4PowerController.X.production.hex"]

def distFiles : List Path :=
  [path ["busy.raw"], path ["checksum.raw"], path ["update.sh"], path ["update_real.sh"], hexFile]

def docFiles : List Path := [path ["changelog.txt"], path ["README.txt"]]

def updateTgz : Path := path ["camUpdate", "update.tgz"]

def updateMd5sum : Path := path ["camUpdate", "update.md5sum"]

/-- `ZIPFILE`. -/
def zipFile (version : Text) : Path := ["camUpdate-".toList ++ version ++ ".zip".toList]

/-- The pattern `%.zip`. -/
def isZip (p : Path) : Bool :=
  match p.getLast? with
  | some n => ".zip".toList.isSuffixOf n
  | none => false

inductive Target
  | clean
  | updateTgz
  | camUpdate
  | updateMd5sum
  | debian
  | zip (name : { p : Path // isZip p = true })
deriving DecidableEq

def prerequisites : Target → List Target
  | .clean | .updateTgz | .camUpdate => []
  | .updateMd5sum => [.updateTgz, .camUpdate]
  | .debian => [.clean]
  | .zip _ => [.camUpdate, .updateTgz, .updateMd5sum]

def sources : Target → List Path
  | .camUpdate => distFiles
  | .zip _ => docFiles
  | _ => []

def recipe (version : Text) : Target → List Line
  | .clean => [.rmRecursive (zipFile version), .rmRecursive debianZip, .rmRecursive camUpdateDir]
  | .updateTgz =>
    [.mkdir camUpdateDir, .echoVersion filesystemRevision,
      .link (path ["etc", "udev", "rules.d"]) rulesD, .tar updateTgz rootfsDir]
  | .camUpdate => [.mkdir camUpdateDir, .cp distFiles camUpdateDir]
  | .updateMd5sum => [.rm updateMd5sum, .md5sum camUpdateDir updateMd5sum]
  | .debian =>
    [.mkdir camUpdateDir, .cpAll (path ["update-to-debian"]) camUpdateDir,
      .cp [path ["update.sh"], hexFile] camUpdateDir, .mv debianImage camUpdateDir,
      .md5sum camUpdateDir updateMd5sum, .zip debianZip camUpdateDir]
  | .zip name => [.rm name, .zip name camUpdateDir, .zipJunkPaths name docFiles]

structure Repo (γ : Type*) where
  tree : Files γ
  version : Text
  made : List Target
  failed : Bool

/-- A new invocation, which asks `git` for the version; or a recipe of the current one. -/
inductive Act (γ : Type*)
  | make (version : Text)
  | recipe (target : Target) (fail : Option ℕ) (junk : List (Path × Option γ))

/-- `make` runs a recipe once, behind those of its prerequisites, and none after a failure. -/
def step (k : Tools γ) (s : Repo γ) : Act γ → Option (Repo γ)
  | .make version => some ⟨s.tree, version, [], false⟩
  | .recipe target fail junk =>
    if s.failed = false ∧ target ∉ s.made ∧ (∀ t ∈ prerequisites target, t ∈ s.made) ∧
        ∀ f ∈ sources target, (s.tree.lookup f).isSome then
      let r := runRecipe k s.version junk fail (recipe s.version target) s.tree
      some ⟨r.1, s.version, if r.2 then target :: s.made else s.made, !r.2⟩
    else none

def start (t : Files γ) : Repo γ := ⟨t, [], [], true⟩

end ChronosUpdates.Makefile
