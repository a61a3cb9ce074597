import ContainerFs.Fs.Attr
import ContainerFs.Fs.World
import ContainerFs.Fs.Backing
import ContainerFs.Fs.Lookup
import ContainerFs.Fs.LookupRule
import ContainerFs.Fs.Read
import ContainerFs.Fs.CopyUp
import ContainerFs.Fs.Mutate
import ContainerFs.Fs.Refs
import ContainerFs.Fs.Invariant
import ContainerFs.Fs.Preserve
import ContainerFs.Fs.Mount
import ContainerFs.Fs.Revalidate
import ContainerFs.Fs.Safety
import ContainerFs.Fs.RenameCheck
import ContainerFs.Fs.Identity
import ContainerFs.Fs.Remove
import ContainerFs.Fs.Progress
import ContainerFs.Fs.Create
import ContainerFs.Fs.Shown
import ContainerFs.Fs.Rename
import ContainerFs.Fs.Frame
import ContainerFs.Fs.Bindings
import ContainerFs.Fs.Whiteouts
import ContainerFs.Fs.NoDangling
import ContainerFs.Image.Manager
import ContainerFs.Image.Murmur3
import ContainerFs.Image.Bloom
import ContainerFs.Image.Varint
import ContainerFs.Image.V1.Writer
import ContainerFs.Image.V1.Reader
