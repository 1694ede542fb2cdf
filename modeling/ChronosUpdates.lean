import ChronosUpdates.Shell.Text
import ChronosUpdates.Shell.Test
import ChronosUpdates.Shell.Getopts
import ChronosUpdates.Shell.Path
import ChronosUpdates.Runs
import ChronosUpdates.MountStack
import ChronosUpdates.PageCache
import ChronosUpdates.PartitionTable
import ChronosUpdates.LoopDevices
import ChronosUpdates.Fifo
import ChronosUpdates.CriticalSection
import ChronosUpdates.FileTree
import ChronosUpdates.Rsync
import ChronosUpdates.Md5sum
import ChronosUpdates.Pmic
import ChronosUpdates.UpdateReal.Script
import ChronosUpdates.UpdateReal.Validation
import ChronosUpdates.UpdateReal.BootFiles
import ChronosUpdates.UpdateReal.Links
import ChronosUpdates.UpdateReal.Recovery
import ChronosUpdates.UpdateReal.History
import ChronosUpdates.UpdateReal.WaitLoop
import ChronosUpdates.UpdateBackend.Script
import ChronosUpdates.UpdateBackend.Protocol
import ChronosUpdates.UpdateBackend.Unmount
import ChronosUpdates.UpdateBackend.CardWrite
import ChronosUpdates.UpdateBackend.CardSize
import ChronosUpdates.UpdateBackend.Startup
import ChronosUpdates.Pmic.Decision
import ChronosUpdates.Pmic.History
import ChronosUpdates.Makefile.Recipes
import ChronosUpdates.Makefile.Image
import ChronosUpdates.Makefile.Schedule
import ChronosUpdates.Makefile.Progress
import ChronosUpdates.Makefile.Stage
import ChronosUpdates.Makefile.Manifest
import ChronosUpdates.Makefile.Release
import ChronosUpdates.Mksd.Scripts
import ChronosUpdates.Mksd.Confinement
import ChronosUpdates.Mksd.Staging
import ChronosUpdates.Debootstrap
import ChronosUpdates.Debootstrap.Invocation
import ChronosUpdates.Mkimage.Arguments
import ChronosUpdates.Mkimage.Assembly
import ChronosUpdates.Mkimage.Image
import ChronosUpdates.Mkimage.Names
import ChronosUpdates.Mksd.Compression
import ChronosUpdates.Mksd.Card
import ChronosUpdates.ImageScripts.OwnDevices
import ChronosUpdates.ImageScripts.Leftovers
import ChronosUpdates.Chroot.Scripts
import ChronosUpdates.Chroot.Ischroot
import ChronosUpdates.Chroot.Cleanup
import ChronosUpdates.Chroot.Sequence
import ChronosUpdates.Udev.Rules
import ChronosUpdates.Udev.Generator
import ChronosUpdates.Udev.Persistence
import ChronosUpdates.Delivery
import ChronosUpdates.Delivery.RootFs
import ChronosUpdates.Delivery.Card
