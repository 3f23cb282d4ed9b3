import RegisterMachine.Settings
import RegisterMachine.World

/-!
# Opening the libraries

Opening a library sets the global of its name to a new table with its functions.
-/

namespace RegisterMachine

namespace World

/-- Makes the native function for a function of a library, and enters it into a table. -/
def addLibraryFunction (w : World) (id : TableId) (f : LibraryFunction) : World :=
  let (w, native) := w.newNative f.qualifiedName (.library f)
  w.setString id f.shortName (.function native)

def openLibrary (w : World) (library : Library) : World :=
  let (w, id) := w.newTable .empty
  let w := (LibraryFunction.ofLibrary library).foldl (fun w f => w.addLibraryFunction id f) w
  w.setGlobal library.name (.table id)

def openLibraries (w : World) : World := Library.all.foldl openLibrary w

def openLibrariesWith (w : World) (settings : Settings) : World :=
  (Library.all.filter settings.libraryEnabled).foldl openLibrary w

end World

end RegisterMachine
